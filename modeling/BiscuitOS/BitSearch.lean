import BiscuitOS.BootmemSearch

/-!
# Searching a bitmap

`find_next_bit` and `find_next_zero_bit` of `lib/bitmap.c`, and the loop of
`for_each_set_bit`. Both functions scan words from the one that holds the start
index on, and return an `int`, which the callers compare with an unsigned
length. Word indices and the counters of the loops are unbounded here: a bitmap
with more words than an `int` counts does not fit in memory.
-/

namespace BiscuitOS.BitSearch

open MachineWord WordBitmap
open BootmemModel hiding findNextZeroBit

/-- The test of one place: a set bit is sought, or a clear one. -/
def isHit (sought : Bool) (x : BitVec 32) : Bool :=
  if sought then x &&& 1#32 ≠ 0#32 else x &&& 1#32 = 0#32

/-- The scan of one word from place `j` on, with the places left. -/
def hitInWord (sought : Bool) (mask : BitVec 32) (j : ℕ) : ℕ → Option ℕ
  | 0 => none
  | left + 1 => if isHit sought (mask >>> j) then some j else hitInWord sought mask (j + 1) left

/-- What a scan gives: the index before it becomes an `int`, and the last word read. -/
structure Scanned where
  /-- The index, or -1. -/
  index : ℤ
  /-- The last word read. -/
  word : ℕ

/-- The scan over the words from word `n + i` on, with the words left. `m` is the place at which
the first word was entered. -/
def scanFrom (sought : Bool) (map : Bitmap) (n m i offset : ℕ) : ℕ → Scanned
  | 0 => ⟨-1, n + i - 1⟩
  | left + 1 =>
    match hitInWord sought (map (n + i) >>> offset) 0 (32 - offset) with
    | some j => ⟨m + i * 32 + j + n * 32, n + i⟩
    | none => scanFrom sought map n m (i + 1) 0 left

/-- The scan that both functions make. -/
def findNext (sought : Bool) (map : Bitmap) (size offset : ℕ) : Scanned :=
  scanFrom sought map (offset / 32) (offset % 32) 0 (offset % 32) (size / 32 + 1)

/-- `find_next_bit`. -/
def findNextBit (addr : Bitmap) (size offset : ℕ) : ℤ :=
  toSigned 32 (findNext true addr size offset).index

/-- `find_next_zero_bit`. -/
def findNextZeroBit (byte : Bitmap) (size offset : ℕ) : ℤ :=
  toSigned 32 (findNext false byte size offset).index

/-- `for_each_set_bit` from `bit` on, with fuel: the bits visited. -/
def forEachFrom (addr : Bitmap) (size bit : ℕ) : ℕ → Option (List ℕ)
  | 0 => none
  | fuel + 1 =>
    if bit < size then
      (forEachFrom addr size (toUnsigned 64 (findNextBit addr size (bit + 1))) fuel).map (bit :: ·)
    else some []

/-- `for_each_set_bit`. -/
def forEachSetBit (addr : Bitmap) (size fuel : ℕ) : Option (List ℕ) :=
  forEachFrom addr size (toUnsigned 64 (findNextBit addr size 0)) fuel

/-- The least index from `o` on whose bit is the one sought. -/
structure Least (sought : Bool) (map : Bitmap) (o k : ℕ) : Prop where
  le : o ≤ k
  hit : bit map k = sought
  before : ∀ j, o ≤ j → j < k → bit map j ≠ sought

/-- No bit of the range is the one sought. -/
def Missing (sought : Bool) (map : Bitmap) (o fin : ℕ) : Prop :=
  ∀ j, o ≤ j → j < fin → bit map j ≠ sought

/-- The value returned, as the callers read it. -/
def returned (s : Scanned) : ℕ := toUnsigned 64 (toSigned 32 s.index)

/-- The value returned is the least hit below `size`, and not below `size` where there is none. -/
structure Answers (sought : Bool) (map : Bitmap) (size o : ℕ) : Prop where
  hit : ∀ k, Least sought map o k → k < size → returned (findNext sought map size o) = k
  miss : Missing sought map o size → size ≤ returned (findNext sought map size o)

/-- A right answer found without reading past the word of bit `size - 1`. -/
structure Finds (sought : Bool) (map : Bitmap) (size o : ℕ) : Prop where
  answers : Answers sought map size o
  reads : (findNext sought map size o).word ≤ (size - 1) / 32

variable {sought : Bool} {map : Bitmap} {size o k n m i left : ℕ}

/-- The test of a place reads its bit. -/
theorem isHit_iff (sought : Bool) (mask : BitVec 32) (j : ℕ) :
    isHit sought (mask >>> j) = true ↔ mask.getLsbD j = sought := by
  have hz := BootmemSearch.shifted_eq_zero_iff mask j
  cases sought with
  | false => rw [isHit, if_neg (by decide), decide_eq_true_eq, hz]
  | true => rw [isHit, if_pos rfl, decide_eq_true_eq, ne_eq, hz, Bool.not_eq_false]

/-- The scan for a clear place is the one of the boot memory allocator. -/
theorem hitInWord_false (mask : BitVec 32) (j left : ℕ) :
    hitInWord false mask j left = zeroInWord mask j left := by
  induction left generalizing j with
  | zero => rfl
  | succ left ih => simp only [hitInWord, zeroInWord, isHit, ih, decide_eq_true_eq,
      Bool.false_eq_true, if_false]

/-- The boot memory allocator's finder is the search for a clear bit. -/
theorem findNext_false (map : Bitmap) (size o : ℕ) :
    (findNext false map size o).index = BootmemModel.findNextZeroBit map size o := by
  have hscan : ∀ left n m i offset, (scanFrom false map n m i offset left).index =
      zeroFrom map n m i offset left := by
    intro left
    induction left with
    | zero => exact fun _ _ _ _ => rfl
    | succ left ih =>
      intro n m i offset
      rw [scanFrom, zeroFrom, hitInWord_false]
      cases zeroInWord (map (n + i) >>> offset) 0 (32 - offset) with
      | some j => rfl
      | none => exact ih n m (i + 1) 0
  exact hscan _ _ _ _ _

/-- The scan of one word gives its first hit. -/
theorem hitInWord_spec (mask : BitVec 32) (j left : ℕ) :
    (∃ i, hitInWord sought mask j left = some i ∧ j ≤ i ∧ i < j + left ∧ mask.getLsbD i = sought ∧
        ∀ k, j ≤ k → k < i → mask.getLsbD k ≠ sought) ∨
      (hitInWord sought mask j left = none ∧
        ∀ k, j ≤ k → k < j + left → mask.getLsbD k ≠ sought) := by
  induction left generalizing j with
  | zero => exact .inr ⟨rfl, fun k hk hlt => by omega⟩
  | succ left ih =>
    have hplace := isHit_iff sought mask j
    by_cases hh : isHit sought (mask >>> j) = true
    · refine .inl ⟨j, by rw [hitInWord, if_pos hh], le_rfl, by omega, hplace.mp hh, ?_⟩
      exact fun k hk hlt => by omega
    · have hextend : ∀ i, (∀ k, j + 1 ≤ k → k < i → mask.getLsbD k ≠ sought) →
          ∀ k, j ≤ k → k < i → mask.getLsbD k ≠ sought := by
        intro i h k hk hlt
        by_cases he : k = j
        · rw [he]
          exact fun hb => hh (hplace.mpr hb)
        · exact h k (by omega) hlt
      rw [hitInWord, if_neg hh]
      rcases ih (j + 1) with ⟨i, hrun, hle, hlt, hbit, hbefore⟩ | ⟨hrun, hall⟩
      · exact .inl ⟨i, hrun, by omega, by omega, hbit, hextend i hbefore⟩
      · exact .inr ⟨hrun, hextend (j + (left + 1)) fun k hk hlt => hall k hk (by omega)⟩

/-- The scan of word `n` entered at place `off`. -/
theorem scan_word (map : Bitmap) (n : ℕ) {off : ℕ} (hoff : off < 32) :
    (∃ j, hitInWord sought (map n >>> off) 0 (32 - off) = some j ∧ off + j < 32 ∧
        Least sought map (n * 32 + off) (n * 32 + off + j)) ∨
      (hitInWord sought (map n >>> off) 0 (32 - off) = none ∧
        Missing sought map (n * 32 + off) (n * 32 + 32)) := by
  have hread : ∀ k, n * 32 + off ≤ k → k < n * 32 + 32 →
      (map n >>> off).getLsbD (k - (n * 32 + off)) = bit map k := fun k hk hlt => by
    rw [BootmemSearch.getLsbD_word map n off _ (by omega), Nat.add_sub_cancel' hk]
  rcases @hitInWord_spec sought (map n >>> off) 0 (32 - off) with
    ⟨j, hrun, _, hlt, hbit, hbefore⟩ | ⟨hrun, hall⟩
  · refine .inl ⟨j, hrun, by omega, by omega, ?_, fun k hk hlt' => ?_⟩
    · rw [← hread _ (by omega) (by omega), Nat.add_sub_cancel_left, hbit]
    · rw [← hread k hk (by omega)]
      exact hbefore _ (by omega) (by omega)
  · refine .inr ⟨hrun, fun k hk hlt => ?_⟩
    rw [← hread k hk hlt]
    exact hall _ (by omega) (by omega)

/-- A hit behind a range without one. -/
theorem Least.extend {e : ℕ} (h : Least sought map e k) (hle : o ≤ e)
    (hmiss : Missing sought map o e) : Least sought map o k := by
  refine ⟨hle.trans h.le, h.hit, fun j hj hlt => ?_⟩
  by_cases he : j < e
  · exact hmiss j hj he
  · exact h.before j (by omega) hlt

/-- Ranges without a hit in a row. -/
theorem Missing.append {e fin : ℕ} (h : Missing sought map o e) (h' : Missing sought map e fin) :
    Missing sought map o fin := by
  intro j hj hlt
  by_cases he : j < e
  · exact h j hj he
  · exact h' j (by omega) hlt

/-- There is one least hit. -/
theorem Least.unique {j : ℕ} (h : Least sought map o k) (h' : Least sought map o j) : k = j := by
  rcases lt_trichotomy k j with hlt | he | hlt
  · exact absurd h.hit (h'.before k h.le hlt)
  · exact he
  · exact absurd h'.hit (h.before j h'.le hlt)

/-- A least hit, or none, in a range. -/
theorem least_or_missing (sought : Bool) (map : Bitmap) (o fin : ℕ) :
    (∃ k, Least sought map o k ∧ k < fin) ∨ Missing sought map o fin := by
  induction fin with
  | zero => exact .inr fun j _ hlt => by omega
  | succ fin ih =>
    rcases ih with ⟨k, hk, hlt⟩ | hmiss
    · exact .inl ⟨k, hk, by omega⟩
    · by_cases hfin : o ≤ fin ∧ bit map fin = sought
      · exact .inl ⟨fin, ⟨hfin.1, hfin.2, hmiss⟩, by omega⟩
      · refine .inr fun j hj hlt hb => ?_
        by_cases he : j = fin
        · exact hfin ⟨he ▸ hj, he ▸ hb⟩
        · exact hmiss j hj (by omega) hb

/-- What a scan gives from index `o` on up to the words before `fin`: the first hit, with the
start place `m` added, and its word; or -1 and the last word. -/
def Gives (sought : Bool) (map : Bitmap) (o fin m : ℕ) (s : Scanned) : Prop :=
  (∃ k, Least sought map o k ∧ k < fin * 32 ∧ s = ⟨((k + m : ℕ) : ℤ), k / 32⟩) ∨
    (Missing sought map o (fin * 32) ∧ s = ⟨-1, fin - 1⟩)

/-- The scan over whole words adds the place `m` of the entry. -/
theorem scanFrom_later (map : Bitmap) (n m i left : ℕ) :
    Gives sought map ((n + i) * 32) (n + i + left) m (scanFrom sought map n m i 0 left) := by
  induction left generalizing i with
  | zero => exact .inr ⟨fun j hj hlt => by omega, rfl⟩
  | succ left ih =>
    rw [scanFrom]
    rcases @scan_word sought map (n + i) _ (show 0 < 32 by decide) with
      ⟨j, hrun, hlt, hfirst⟩ | ⟨hrun, hmiss⟩
    · rw [hrun]
      have hword : ((n + i) * 32 + 0 + j) / 32 = n + i := by omega
      refine .inl ⟨(n + i) * 32 + 0 + j, hfirst, by omega, ?_⟩
      simp only [hword, Scanned.mk.injEq, and_true]
      push_cast
      ring
    · rw [hrun]
      have hnext : (n + (i + 1)) * 32 = (n + i) * 32 + 32 := by ring
      have hend : n + (i + 1) + left = n + i + (left + 1) := by ring
      have hword : Missing sought map ((n + i) * 32) ((n + (i + 1)) * 32) := by
        rw [hnext]
        exact hmiss
      have hrest := ih (i + 1)
      rw [hend] at hrest
      rcases hrest with ⟨k, hfirst, hlt, hres⟩ | ⟨hrest, hres⟩
      · exact .inl ⟨k, hfirst.extend (by omega) hword, hlt, hres⟩
      · exact .inr ⟨hword.append hrest, hres⟩

/-- The word behind those that a search scans. -/
def scanEnd (size o : ℕ) : ℕ := o / 32 + size / 32 + 1

/-- What is added to a hit: nothing in the word entered, the start place behind it. -/
def excess (o k : ℕ) : ℕ := if k / 32 = o / 32 then 0 else o % 32

/-- A search gives the first hit of the words it scans, with the excess, or -1. -/
theorem findNext_spec (sought : Bool) (map : Bitmap) (size o : ℕ) :
    (∃ k, Least sought map o k ∧ k < scanEnd size o * 32 ∧
        findNext sought map size o = ⟨((k + excess o k : ℕ) : ℤ), k / 32⟩) ∨
      (Missing sought map o (scanEnd size o * 32) ∧
        findNext sought map size o = ⟨-1, scanEnd size o - 1⟩) := by
  have hmod : o % 32 < 32 := Nat.mod_lt o (by decide)
  have hsplit : o / 32 * 32 + o % 32 = o := by omega
  have hscan := @scan_word sought map (o / 32) _ hmod
  rw [hsplit] at hscan
  rw [findNext, scanFrom, Nat.add_zero]
  rcases hscan with ⟨j, hrun, hlt, hfirst⟩ | ⟨hrun, hmiss⟩
  · rw [hrun]
    have hword : (o + j) / 32 = o / 32 := by omega
    refine .inl ⟨o + j, hfirst, by rw [scanEnd]; omega, ?_⟩
    simp only [excess, hword, if_true, Scanned.mk.injEq, and_true]
    omega
  · rw [hrun]
    have hword : Missing sought map o ((o / 32 + 1) * 32) := by
      rwa [Nat.succ_mul]
    have hlater := @scanFrom_later sought map (o / 32) (o % 32) 1 (size / 32)
    have hend : o / 32 + 1 + size / 32 = scanEnd size o := by
      rw [scanEnd]
      ring
    rw [hend] at hlater
    rcases hlater with ⟨k, hfirst, hlt, hres⟩ | ⟨hrest, hres⟩
    · have hne : k / 32 ≠ o / 32 := by
        have hle := hfirst.le
        omega
      refine .inl ⟨k, hfirst.extend (by omega) hword, hlt, ?_⟩
      rw [excess, if_neg hne]
      exact hres
    · exact .inr ⟨hword.append hrest, hres⟩

/-- The value is right: a hit below `size` can be returned, and it lies in the word entered unless
the search starts a word; a hit of the scanned words that is not below `size` does not turn into a
smaller value. -/
structure ValueRight (sought : Bool) (map : Bitmap) (size o : ℕ) : Prop where
  below : ∀ k, Least sought map o k → k < size →
    (k < 2 ^ 31 ∨ 2 ^ 64 - 2 ^ 31 ≤ k) ∧ (o % 32 = 0 ∨ k / 32 = o / 32)
  behind : ∀ k, Least sought map o k → size ≤ k → k < scanEnd size o * 32 →
    size ≤ toUnsigned 64 (toSigned 32 (k + excess o k))

/-- No word past the one of bit `size - 1` is read: there is a hit up to that word, or the search
enters the first word and `size` ends in the middle of a word. -/
def ReadsRight (sought : Bool) (map : Bitmap) (size o : ℕ) : Prop :=
  (∃ k, Least sought map o k ∧ k / 32 ≤ (size - 1) / 32) ∨ (o < 32 ∧ size % 32 ≠ 0)

/-- -1 is the largest unsigned value. -/
theorem returned_minus_one : toUnsigned 64 (toSigned 32 (-1)) = 2 ^ 64 - 1 := rfl

/-- An index is returned as it is when it fits an `int` and nothing is added to it. -/
theorem returned_eq_iff (hk : k < 2 ^ 64) :
    toUnsigned 64 (toSigned 32 ((k + excess o k : ℕ) : ℤ)) = k ↔
      (k < 2 ^ 31 ∨ 2 ^ 64 - 2 ^ 31 ≤ k) ∧ (o % 32 = 0 ∨ k / 32 = o / 32) := by
  rw [toUnsigned_toSigned, excess]
  split <;> split <;> omega

/-- The value is right exactly under the condition. -/
theorem answers_iff (hsize : size < 2 ^ 64) :
    Answers sought map size o ↔ ValueRight sought map size o := by
  have hend : size ≤ scanEnd size o * 32 := by
    rw [scanEnd]
    omega
  rcases findNext_spec sought map size o with ⟨k, hk, hlt, hres⟩ | ⟨hmiss, hres⟩
  · have hret : returned (findNext sought map size o) =
        toUnsigned 64 (toSigned 32 ((k + excess o k : ℕ) : ℤ)) := by
      rw [hres]
      rfl
    constructor
    · intro h
      refine ⟨fun j hj hlow => ?_, fun j hj hhigh _ => ?_⟩
      · have hval := h.hit j hj hlow
        rw [hret, hk.unique hj] at hval
        exact (returned_eq_iff (hlow.trans hsize)).mp hval
      · have hnone : Missing sought map o size := fun i hi hlow => hj.before i hi (by omega)
        rw [← hj.unique hk] at hret
        exact (h.miss hnone).trans hret.le
    · intro h
      refine ⟨fun j hj hlow => ?_, fun hnone => ?_⟩
      · rw [hret, hk.unique hj]
        exact (returned_eq_iff (hlow.trans hsize)).mpr (h.below j hj hlow)
      · have hhigh : size ≤ k := not_lt.mp fun hlow => hnone k hk.le hlow hk.hit
        rw [hret]
        exact h.behind k hk hhigh hlt
  · have hall : ∀ j, Least sought map o j → ¬ j < scanEnd size o * 32 :=
      fun j hj hlow => hmiss j hj.le hlow hj.hit
    constructor
    · intro _
      exact ⟨fun j hj hlow => absurd (hlow.trans_le hend) (hall j hj),
        fun j hj _ hlow => absurd hlow (hall j hj)⟩
    · intro _
      refine ⟨fun j hj hlow => absurd (hlow.trans_le hend) (hall j hj), fun _ => ?_⟩
      rw [hres, returned, returned_minus_one]
      omega

/-- The reads stay within the bitmap exactly under the condition. -/
theorem reads_iff (ho : o < size) :
    (findNext sought map size o).word ≤ (size - 1) / 32 ↔ ReadsRight sought map size o := by
  rw [ReadsRight]
  rcases findNext_spec sought map size o with ⟨k, hk, hlt, hres⟩ | ⟨hmiss, hres⟩
  · rw [hres]
    rw [scanEnd] at hlt
    constructor
    · exact fun h => .inl ⟨k, hk, h⟩
    · rintro (⟨j, hj, hle⟩ | hfirst)
      · rwa [hk.unique hj]
      · dsimp only
        omega
  · rw [hres]
    constructor
    · intro h
      rw [scanEnd] at h
      dsimp only at h
      exact .inr (by omega)
    · rintro (⟨j, hj, hle⟩ | hfirst)
      · have hlow : j < scanEnd size o * 32 := by
          rw [scanEnd]
          omega
        exact absurd hj.hit (hmiss j hj.le hlow)
      · rw [scanEnd]
        dsimp only
        omega

/-- The value of `find_next_bit` in the callers. -/
theorem returned_findNextBit (map : Bitmap) (size o : ℕ) :
    returned (findNext true map size o) = toUnsigned 64 (findNextBit map size o) := rfl

/-- The value of `find_next_zero_bit` in the callers; the boot memory allocator's finder is the
same search. -/
theorem returned_findNextZeroBit (map : Bitmap) (size o : ℕ) :
    returned (findNext false map size o) = toUnsigned 64 (findNextZeroBit map size o) ∧
      findNextZeroBit map size o = toSigned 32 (BootmemModel.findNextZeroBit map size o) := by
  rw [← findNext_false]
  exact ⟨rfl, rfl⟩

/-- The bits from `o` on that are to be visited. -/
def setBitsFrom (map : Bitmap) (size o : ℕ) : List ℕ := (List.range' o (size - o)).filter (bit map)

/-- Without a set bit nothing is to be visited. -/
theorem setBitsFrom_missing (h : Missing true map o size) : setBitsFrom map size o = [] := by
  rw [setBitsFrom, List.filter_eq_nil_iff]
  intro j hj
  rw [List.mem_range'_1] at hj
  exact h j hj.1 (by omega)

/-- The least set bit is to be visited first. -/
theorem setBitsFrom_least (h : Least true map o k) (hk : k < size) :
    setBitsFrom map size o = k :: setBitsFrom map size (k + 1) := by
  have hle := h.le
  have hsplit : List.range' o (size - o) =
      List.range' o (k - o) ++ k :: List.range' (k + 1) (size - (k + 1)) := by
    have hlen : size - o = (k - o) + (size - (k + 1) + 1) := by omega
    have hmid : o + 1 * (k - o) = k := by omega
    rw [hlen, ← List.range'_append, hmid, List.range'_succ]
  have hnone : (List.range' o (k - o)).filter (bit map) = [] := by
    rw [List.filter_eq_nil_iff]
    intro j hj
    rw [List.mem_range'_1] at hj
    exact h.before j hj.1 (by omega)
  rw [setBitsFrom, hsplit, List.filter_append, hnone, List.nil_append,
    List.filter_cons_of_pos h.hit, setBitsFrom]

/-- The calls that the loop is to make from `o` on: one at `o`, and one after each set bit. -/
def CallsRight (map : Bitmap) (size o : ℕ) : Prop :=
  ValueRight true map size o ∧
    ∀ b, o ≤ b → b < size → bit map b = true → ValueRight true map size (b + 1)

/-- A loop that visits something visits the index it is entered with. -/
theorem forEachFrom_cons {bit fuel b : ℕ} {rest : List ℕ}
    (h : forEachFrom map size bit fuel = some (b :: rest)) :
    bit = b ∧ bit < size ∧ ∃ left,
      forEachFrom map size (toUnsigned 64 (findNextBit map size (bit + 1))) left = some rest := by
  cases fuel with
  | zero => cases h
  | succ fuel =>
    rw [forEachFrom] at h
    by_cases hlt : bit < size
    · rw [if_pos hlt, Option.map_eq_some_iff] at h
      obtain ⟨l, hl, he⟩ := h
      obtain ⟨rfl, rfl⟩ := List.cons.inj he
      exact ⟨rfl, hlt, fuel, hl⟩
    · rw [if_neg hlt] at h
      cases h

/-- A loop visits nothing exactly when it is entered with an index that is not below `size`. -/
theorem forEachFrom_nil {bit : ℕ} :
    (∃ fuel, forEachFrom map size bit fuel = some []) ↔ size ≤ bit := by
  constructor
  · rintro ⟨fuel, h⟩
    cases fuel with
    | zero => cases h
    | succ fuel =>
      rw [forEachFrom] at h
      by_contra hlt
      rw [if_pos (not_le.mp hlt), Option.map_eq_some_iff] at h
      obtain ⟨l, -, he⟩ := h
      cases he
  · intro hle
    exact ⟨1, by rw [forEachFrom, if_neg (not_lt.mpr hle)]⟩

/-- The loop entered with the value found at `o` visits the set bits from `o` on exactly when each
of these calls gives the right value. -/
theorem forEachFrom_iff (hsize : size < 2 ^ 64) (n : ℕ) : ∀ o, o + n = size →
    ((∃ fuel, forEachFrom map size (toUnsigned 64 (findNextBit map size o)) fuel =
      some (setBitsFrom map size o)) ↔ CallsRight map size o) := by
  induction n using Nat.strong_induction_on with
  | _ n ih =>
    intro o ho
    rw [CallsRight, ← answers_iff hsize, ← returned_findNextBit]
    rcases least_or_missing true map o size with ⟨k, hk, hlt⟩ | hmiss
    · have hle := hk.le
      have hrest := ih (size - (k + 1)) (by omega) (k + 1) (by omega)
      rw [setBitsFrom_least hk hlt]
      constructor
      · rintro ⟨fuel, h⟩
        obtain ⟨hfirst, -, htail⟩ := forEachFrom_cons h
        rw [hfirst] at htail
        obtain ⟨hnext, hlater⟩ := hrest.mp htail
        refine ⟨⟨fun j hj _ => hfirst.trans (hk.unique hj), fun hnone => ?_⟩, fun b hb hlow hset => ?_⟩
        · exact absurd hk.hit (hnone k hle hlt)
        · rcases lt_trichotomy b k with hbk | rfl | hbk
          · exact absurd hset (hk.before b hb hbk)
          · exact hnext
          · exact hlater b hbk hlow hset
      · rintro ⟨hfirst, hlater⟩
        obtain ⟨fuel, h⟩ := hrest.mpr ⟨hlater k hle hlt hk.hit,
          fun b hb hlow hset => hlater b (by omega) hlow hset⟩
        refine ⟨fuel + 1, ?_⟩
        rw [hfirst.hit k hk hlt, forEachFrom, if_pos hlt, h]
        rfl
    · rw [setBitsFrom_missing hmiss, forEachFrom_nil]
      constructor
      · intro hle
        refine ⟨⟨fun j hj hlow => ?_, fun _ => hle⟩, fun b hb hlow hset => ?_⟩
        · exact absurd hj.hit (hmiss j hj.le hlow)
        · exact absurd hset (hmiss b hb hlow)
      · exact fun h => h.1.miss hmiss

/-- A search finds the least hit, and reads no word past the bitmap, exactly under the condition
on the value and on the reads; and the loop over the set bits visits them in order exactly when
the value is right at 0 and after each set bit. -/
theorem finds_iff (map : Bitmap) (hsize : size < 2 ^ 64) :
    (∀ sought o, o < size → (Finds sought map size o ↔
      ValueRight sought map size o ∧ ReadsRight sought map size o)) ∧
    ((∃ fuel, forEachSetBit map size fuel = some ((List.range size).filter (bit map))) ↔
      ValueRight true map size 0 ∧
        ∀ b < size, bit map b = true → ValueRight true map size (b + 1)) := by
  constructor
  · intro sought o ho
    rw [← answers_iff hsize, ← reads_iff ho]
    exact ⟨fun h => ⟨h.answers, h.reads⟩, fun h => ⟨h.1, h.2⟩⟩
  · have hall := @forEachFrom_iff map _ hsize size 0 (Nat.zero_add size)
    have hlist : setBitsFrom map size 0 = (List.range size).filter (bit map) := by
      rw [setBitsFrom, List.range_eq_range', Nat.sub_zero]
    rw [hlist, CallsRight] at hall
    exact hall.trans ⟨fun h => ⟨h.1, fun b hb => h.2 b (Nat.zero_le b) hb⟩,
      fun h => ⟨h.1, fun b _ hb => h.2 b hb⟩⟩

/-- Two set bits in the first word. -/
def oneWord : Bitmap := fun n => if n = 0 then 0x28#32 else 0#32

/-- The set bits of one word are visited in order, so that each call of the loop is right. -/
theorem finds_iff_oneWord : forEachSetBit oneWord 20 3 = some [3, 5] ∧
    ValueRight true oneWord 20 0 ∧
      ∀ b < 20, bit oneWord b = true → ValueRight true oneWord 20 (b + 1) :=
  ⟨by decide, (finds_iff oneWord (by decide)).2.mp ⟨3, by decide⟩⟩

/-- The bits 0 and 33 are set. -/
def twoWords : Bitmap := fun n => if n = 0 then 1#32 else if n = 1 then 2#32 else 0#32

/-- From index 1 on the next set bit is 33, but 34 is found; the loop visits 34 instead of 33. -/
theorem twoWords_counterexample :
    findNextBit twoWords 64 1 = 34 ∧ Least true twoWords 1 33 ∧ ¬ Finds true twoWords 64 1 ∧
      forEachSetBit twoWords 64 3 = some [0, 34] ∧
      (List.range 64).filter (bit twoWords) = [0, 33] := by
  have hleast : Least true twoWords 1 33 := by
    refine ⟨by decide, by decide, fun j hj hlt => ?_⟩
    interval_cases j <;> decide
  have hval : findNextBit twoWords 64 1 = 34 := by decide
  refine ⟨hval, hleast, fun h => ?_, by decide, by decide⟩
  have hhit := h.answers.hit 33 hleast (by decide)
  rw [returned_findNextBit, hval] at hhit
  exact absurd hhit (by decide)

end BiscuitOS.BitSearch
