import BiscuitOS.ByteMemory
import BiscuitOS.BootmemReserve

/-!
# Filling and copying bitmaps

`include/linux/bitmap.h` over the bytes of memory. A bitmap is stored in 32-bit
words, and its length is rounded up to such words, but it is filled and copied
through `unsigned long`, which is 64 bits wide. Each store is recorded with the
bytes it covers.
-/

namespace BiscuitOS.BitmapStorage

open MachineWord WordBitmap ByteMemory BootmemModel BootmemReserve

/-- Memory, and the stores made so far: the first byte and the length of each. -/
structure Stores where
  /-- The bytes. -/
  memory : Memory
  /-- The stores, the last one first. -/
  made : List (ℕ × ℕ)

/-- `BITS_TO_LONGS`, in `int`. -/
def bitsToLongs (nbits : ℕ) : ℤ := (toSigned 32 (nbits + 32 - 1)).tdiv 32

/-- `BITMAP_LAST_WORD_MASK`. -/
def bitmapLastWordMask (nbits : ℕ) : BitVec 32 :=
  if nbits % 32 ≠ 0 then 1#32 <<< (nbits % 32) - 1#32 else ~~~0#32

/-- `small_const_nbits`, by whether the compiler knows `nbits`. -/
def smallConstNbits (known : Bool) (nbits : ℕ) : Bool := known && nbits ≤ 32

/-- `memset`. -/
def memset (s : Stores) (a c len : ℕ) : Stores where
  memory := fun b => if a ≤ b ∧ b < a + len then c else s.memory b
  made := (a, len) :: s.made

/-- `memcpy` between ranges that do not overlap. -/
def memcpy (s : Stores) (dst src len : ℕ) : Stores where
  memory := fun b => if dst ≤ b ∧ b < dst + len then s.memory (src + (b - dst)) else s.memory b
  made := (dst, len) :: s.made

/-- Assign an `unsigned long`. -/
def assign (s : Stores) (a v : ℕ) : Stores where
  memory := store s.memory a 8 v
  made := (a, 8) :: s.made

/-- `bitmap_fill`. -/
def bitmapFill (known : Bool) (s : Stores) (dst nbits : ℕ) : Stores :=
  let nlongs := toUnsigned 64 (bitsToLongs nbits)
  let s :=
    if smallConstNbits known nbits then s
    else
      let len := toSigned 32 (wrap 64 (wrapSub 64 nlongs 1 * 8))
      memset s dst 0xff (toUnsigned 64 len)
  assign s (wrap 64 (dst + wrapSub 64 nlongs 1 * 8)) (bitmapLastWordMask nbits).toNat

/-- `bitmap_copy`. -/
def bitmapCopy (known : Bool) (s : Stores) (dst src nbits : ℕ) : Stores :=
  if smallConstNbits known nbits then assign s dst (load s.memory src 8)
  else
    let len := toSigned 32 (wrap 64 (toUnsigned 64 (bitsToLongs nbits) * 8))
    memcpy s dst src (toUnsigned 64 len)

/-- The words of a bitmap at an address. -/
def wordsAt (m : Memory) (a : ℕ) : Bitmap := fun n => BitVec.ofNat 32 (load m (a + 4 * n) 4)

/-- The words that hold a bitmap. -/
def wordCount (nbits : ℕ) : ℕ := (nbits + 31) / 32

/-- All stores stay within the words of the bitmap. -/
def Kept (s : Stores) (dst nbits : ℕ) : Prop :=
  ∀ r ∈ s.made, ∀ b, r.1 ≤ b → b < r.1 + r.2 → dst ≤ b ∧ b < dst + 4 * wordCount nbits

/-- What `bitmap_fill` is to do. -/
structure Filled (known : Bool) (m : Memory) (dst nbits : ℕ) : Prop where
  set : ∀ i < nbits, testBit i (wordsAt (bitmapFill known ⟨m, []⟩ dst nbits).memory dst) = 1
  unused : ∀ i, nbits ≤ i → i < 32 * wordCount nbits →
    testBit i (wordsAt (bitmapFill known ⟨m, []⟩ dst nbits).memory dst) = 0
  kept : Kept (bitmapFill known ⟨m, []⟩ dst nbits) dst nbits

/-- What `bitmap_copy` is to do. -/
structure Copied (known : Bool) (m : Memory) (dst src nbits : ℕ) : Prop where
  same : ∀ i < nbits, testBit i (wordsAt (bitmapCopy known ⟨m, []⟩ dst src nbits).memory dst) =
    testBit i (wordsAt m src)
  kept : Kept (bitmapCopy known ⟨m, []⟩ dst src nbits) dst nbits

variable {known : Bool} {m : Memory} {dst src nbits : ℕ}

/-- The length in `int`, where the sum stays below the largest `int`. -/
theorem bitsToLongs_of_lt (h : nbits + 31 < 2 ^ 31) : bitsToLongs nbits = wordCount nbits := by
  have hs : toSigned 32 ((nbits : ℤ) + 32 - 1) = ((nbits + 31 : ℕ) : ℤ) := by
    have he : (nbits : ℤ) + 32 - 1 = ((nbits + 31 : ℕ) : ℤ) := by omega
    rw [he, toSigned_of_lt (by decide) h]
  rw [bitsToLongs, hs, wordCount]
  exact (Int.ofNat_tdiv _ _).symm

/-- The length in `int` of the largest bitmaps is negative. -/
theorem bitsToLongs_of_ge (h : 2 ^ 31 ≤ nbits + 31) (hlt : nbits < 2 ^ 31) :
    bitsToLongs nbits = -67108864 ∨ bitsToLongs nbits = -67108863 := by
  have hs : toSigned 32 ((nbits : ℤ) + 32 - 1) = (nbits : ℤ) + 31 - 2 ^ 32 := by
    rw [toSigned, Int.bmod_def]
    split <;> omega
  have hsign : Int.sign 32 = 1 := rfl
  rw [bitsToLongs, hs, Int.tdiv_eq_ediv, hsign]
  split <;> omega

/-- A count of words that fits is taken over as it is. -/
theorem toUnsigned_words {n : ℕ} (h : n < 2 ^ 64) : toUnsigned 64 ((n : ℕ) : ℤ) = n := by
  rw [toUnsigned]
  omega

/-- The count of words in `size_t`. -/
theorem nlongs_cases (hpos : 0 < nbits) (hlt : nbits < 2 ^ 31) :
    (0 < wordCount nbits ∧ wordCount nbits ≤ 2 ^ 26 ∧
      toUnsigned 64 (bitsToLongs nbits) = wordCount nbits) ∨
    (wordCount nbits = 2 ^ 26 ∧ ∃ c, 67108863 ≤ c ∧ c ≤ 67108864 ∧
      toUnsigned 64 (bitsToLongs nbits) = 2 ^ 64 - c) := by
  have hcount : wordCount nbits = (nbits + 31) / 32 := rfl
  by_cases h : nbits + 31 < 2 ^ 31
  · refine Or.inl ⟨by omega, by omega, ?_⟩
    rw [bitsToLongs_of_lt h, toUnsigned_words (by omega)]
  · refine Or.inr ⟨by omega, ?_⟩
    rcases bitsToLongs_of_ge (not_lt.mp h) hlt with hc | hc
    · refine ⟨67108864, by omega, le_rfl, ?_⟩
      rw [hc, toUnsigned]
      rfl
    · refine ⟨67108863, le_rfl, by omega, ?_⟩
      rw [hc, toUnsigned]
      rfl

/-- The length that `bitmap_fill` and `bitmap_copy` make of a count of words. -/
theorem len_of_words {n : ℕ} (h : n ≤ 2 ^ 26) :
    toUnsigned 64 (toSigned 32 (wrap 64 (n * 8))) = n * 8 := by
  rw [wrap_of_lt (by omega), toSigned_of_lt (by decide) (by omega), toUnsigned_words (by omega)]

/-- `bitmap_fill` stores its last word past the words of the bitmap. -/
theorem bitmapFill_strays (hpos : 0 < nbits) (hlt : nbits < 2 ^ 31) :
    ¬ Kept (bitmapFill known ⟨m, []⟩ dst nbits) dst nbits := by
  intro hk
  have hlast : (wrap 64 (dst + wrapSub 64 (toUnsigned 64 (bitsToLongs nbits)) 1 * 8), 8) ∈
      (bitmapFill known ⟨m, []⟩ dst nbits).made := List.mem_cons_self ..
  have hfirst := hk _ hlast _ le_rfl (by omega)
  have hend := hk _ hlast (wrap 64 (dst + wrapSub 64 (toUnsigned 64 (bitsToLongs nbits)) 1 * 8) + 7)
    (by omega) (by omega)
  rcases nlongs_cases hpos hlt with ⟨h0, htop, hn⟩ | ⟨htop, c, hc, hc', hn⟩
  · rw [hn, wrapSub_of_le (by omega) h0] at hfirst hend
    rw [wrap] at hfirst hend
    omega
  · rw [hn, wrapSub_of_le (by omega) (by omega)] at hfirst hend
    rw [wrap] at hfirst hend
    omega

/-- `bitmap_copy` copies past the words of the bitmap. -/
theorem bitmapCopy_strays (hpos : 0 < nbits) (hlt : nbits < 2 ^ 31) :
    ¬ Kept (bitmapCopy known ⟨m, []⟩ dst src nbits) dst nbits := by
  intro hk
  rw [bitmapCopy] at hk
  by_cases hs : smallConstNbits known nbits = true
  · rw [if_pos hs] at hk
    have hend := hk (dst, 8) (List.mem_cons_self ..) (dst + 7) (by omega) (by omega)
    rw [smallConstNbits, Bool.and_eq_true, decide_eq_true_eq] at hs
    have hcount : wordCount nbits = (nbits + 31) / 32 := rfl
    omega
  · rw [if_neg hs] at hk
    have hrange := hk _ (List.mem_cons_self ..)
    rcases nlongs_cases hpos hlt with ⟨h0, htop, hn⟩ | ⟨htop, c, hc, hc', hn⟩
    · rw [hn, len_of_words htop] at hrange
      have hend := hrange (dst + wordCount nbits * 8 - 1) (by omega) (by omega)
      omega
    · have hlen : toUnsigned 64 (toSigned 32 (wrap 64 ((2 ^ 64 - c) * 8))) = 2 ^ 64 - 8 * c := by
        have hw : wrap 64 ((2 ^ 64 - c) * 8) = 2 ^ 64 - 8 * c := by
          rw [wrap]
          omega
        rw [hw, toSigned, Int.bmod_def, toUnsigned]
        split <;> omega
      rw [hn, hlen] at hrange
      have hend := hrange (dst + 2 ^ 28) (by omega) (by omega)
      omega

/-- Neither operation stays within the storage of any bitmap. -/
theorem storage_left (hpos : 0 < nbits) (hlt : nbits < 2 ^ 31) :
    ¬ Filled known m dst nbits ∧ ¬ Copied known m dst src nbits :=
  ⟨fun h => bitmapFill_strays hpos hlt h.kept, fun h => bitmapCopy_strays hpos hlt h.kept⟩

/-- Ten bits at address 4096. -/
theorem storage_left_ten : ¬ Filled false (fun _ => 0) 4096 10 ∧
    ¬ Copied false (fun _ => 0) 4096 8192 10 := storage_left (by decide) (by decide)

/-- Filling ten bits, kept in the four bytes at address 4096, also clears the four bytes behind
them. -/
theorem storage_counterexample :
    (bitmapFill false ⟨fun _ => 0xff, []⟩ 4096 10).made = [(4096, 8), (4096, 0)] ∧
      (bitmapFill false ⟨fun _ => 0xff, []⟩ 4096 10).memory 4100 = 0 ∧
      ¬ Filled false (fun _ => 0xff) 4096 10 := by
  refine ⟨by decide, by decide, fun h => ?_⟩
  have hlast := h.kept (4096, 8) (by decide) 4100 (by decide) (by decide)
  exact absurd hlast.2 (by decide)

/-- A word of set bytes. -/
theorem load_full {a : ℕ} (h : ∀ b, a ≤ b → b < a + 4 → m b = 0xff) : load m a 4 = 2 ^ 32 - 1 := by
  simp only [load, h a le_rfl (by omega), h (a + 1) (by omega) (by omega),
    h (a + 1 + 1) (by omega) (by omega), h (a + 1 + 1 + 1) (by omega) (by omega)]
  rfl

/-- The lower half of an `unsigned long` just assigned. -/
theorem load_assigned (m : Memory) (a : ℕ) (v : BitVec 32) :
    load (store m a 8 v.toNat) a 4 = v.toNat := by
  have hsame : Same (store m a 4 v.toNat) (store m a 8 v.toNat) a 4 := fun b hb hb' => by
    rw [store, store, if_pos ⟨hb, by omega⟩, if_pos ⟨hb, hb'⟩]
  rw [load_congr hsame, load_store]
  exact Nat.mod_eq_of_lt v.isLt

/-- The bits of a full word. -/
theorem full_getLsbD {i : ℕ} (hi : i < 32) : (BitVec.ofNat 32 (2 ^ 32 - 1)).getLsbD i = true := by
  rw [BitVec.getLsbD_ofNat, Nat.testBit_two_pow_sub_one, decide_eq_true hi]
  rfl

/-- The places that the mask of the last word keeps. -/
theorem bitmapLastWordMask_getLsbD {i : ℕ} (hpos : 0 < nbits) (hle : nbits ≤ 32) (hi : i < 32) :
    (bitmapLastWordMask nbits).getLsbD i = decide (i < nbits) := by
  rw [bitmapLastWordMask]
  by_cases hfull : nbits = 32
  · subst hfull
    rw [if_neg (by decide), BitVec.getLsbD_not, BitVec.getLsbD_zero, decide_eq_true hi]
    rfl
  · have hmod : nbits % 32 = nbits := Nat.mod_eq_of_lt (by omega)
    have hone : (1#32 <<< nbits).toNat = 2 ^ nbits := by
      rw [BitVec.toNat_shiftLeft, BitVec.toNat_ofNat, Nat.shiftLeft_eq, Nat.one_mod, Nat.one_mul]
      exact Nat.mod_eq_of_lt (Nat.pow_lt_pow_right (by decide) (by omega))
    have hsub : (1#32 <<< nbits - 1#32).toNat = 2 ^ nbits - 1 := by
      rw [BitVec.toNat_sub_of_le, hone]
      · rfl
      · rw [BitVec.le_def, hone]
        exact Nat.one_le_two_pow
    rw [hmod, if_pos hpos.ne', BitVec.getLsbD, hsub, Nat.testBit_two_pow_sub_one]

/-- The bytes after filling, where the last word is not cut off by the end of memory. -/
theorem bitmapFill_memory (hpos : 0 < nbits) (hlt : nbits + 31 < 2 ^ 31)
    (hfit : dst + 8 * wordCount nbits ≤ 2 ^ 64) :
    (bitmapFill known ⟨m, []⟩ dst nbits).memory =
      store (fun b => if dst ≤ b ∧ b < dst + (wordCount nbits - 1) * 8 then 0xff else m b)
        (dst + (wordCount nbits - 1) * 8) 8 (bitmapLastWordMask nbits).toNat := by
  have hcount : wordCount nbits = (nbits + 31) / 32 := rfl
  have hn : toUnsigned 64 (bitsToLongs nbits) = wordCount nbits := by
    rw [bitsToLongs_of_lt hlt, toUnsigned_words (by omega)]
  have haddr : wrap 64 (dst + (wordCount nbits - 1) * 8) = dst + (wordCount nbits - 1) * 8 :=
    wrap_of_lt (by omega)
  rw [bitmapFill, hn, wrapSub_of_le (by omega) (by omega)]
  dsimp only [assign]
  rw [haddr, len_of_words (by omega)]
  by_cases hs : smallConstNbits known nbits = true
  · have hone : wordCount nbits = 1 := by
      rw [smallConstNbits, Bool.and_eq_true, decide_eq_true_eq] at hs
      omega
    have hnone : ∀ b, ¬(dst ≤ b ∧ b < dst + (wordCount nbits - 1) * 8) := fun b => by omega
    simp only [if_pos hs, if_neg (hnone _)]
  · rw [if_neg hs]
    rfl

/-- Filling sets every bit of the bitmap; it clears the unused places of the last word only where
the bitmap has one word. -/
theorem bitmapFill_bits (hpos : 0 < nbits) (hlt : nbits + 31 < 2 ^ 31)
    (hfit : dst + 8 * wordCount nbits ≤ 2 ^ 64) {i : ℕ} (hi : i < 32 * wordCount nbits) :
    testBit i (wordsAt (bitmapFill known ⟨m, []⟩ dst nbits).memory dst) =
      if i < nbits ∨ 1 < wordCount nbits then 1 else 0 := by
  have hcount : wordCount nbits = (nbits + 31) / 32 := rfl
  rw [testBit_eq, bitmapFill_memory hpos hlt hfit, bit, wordsAt]
  by_cases hone : 1 < wordCount nbits
  · have hword : load (store (fun b => if dst ≤ b ∧ b < dst + (wordCount nbits - 1) * 8 then 0xff
        else m b) (dst + (wordCount nbits - 1) * 8) 8 (bitmapLastWordMask nbits).toNat)
        (dst + 4 * (i / 32)) 4 = 2 ^ 32 - 1 := by
      refine load_full fun b hb hb' => ?_
      rw [store, if_neg (by omega), if_pos (by omega)]
    rw [hword, full_getLsbD (Nat.mod_lt i (by decide)), if_pos (Or.inr hone), if_pos rfl]
  · have hz : i / 32 = 0 := by omega
    have hmod : i % 32 = i := by omega
    have hstart : (wordCount nbits - 1) * 8 = 0 := by omega
    rw [hz, hmod, Nat.mul_zero, hstart, Nat.add_zero, load_assigned, BitVec.ofNat_toNat,
      BitVec.setWidth_eq, bitmapLastWordMask_getLsbD hpos (by omega) (by omega)]
    simp only [hone, or_false, decide_eq_true_eq]

/-- A byte of a word loaded. -/
theorem load_byte (hm : ∀ b, m b < 256) (a n k : ℕ) (hk : k < n) :
    load m a n / 256 ^ k % 256 = m (a + k) := by
  induction n generalizing a k with
  | zero => omega
  | succ n ih =>
    have ha := hm a
    rw [load]
    cases k with
    | zero =>
      rw [pow_zero, Nat.div_one, Nat.add_mul_mod_self_left, Nat.mod_eq_of_lt ha, Nat.add_zero]
    | succ k =>
      have hdiv : (m a + 256 * load m (a + 1) n) / 256 = load m (a + 1) n := by omega
      have hadd : a + (k + 1) = a + 1 + k := by omega
      rw [pow_succ', ← Nat.div_div_eq_div_mul, hdiv, ih (a + 1) k (by omega), hadd]

/-- Equal bytes make equal words. -/
theorem load_shift {m' : Memory} {a a' n : ℕ} (h : ∀ k < n, m' (a + k) = m (a' + k)) :
    load m' a n = load m a' n := by
  induction n generalizing a a' with
  | zero => rfl
  | succ n ih =>
    have hfirst : m' a = m a' := h 0 (Nat.succ_pos n)
    have hrest := @ih (a + 1) (a' + 1) fun k hk => by
      have hnext := h (k + 1) (Nat.succ_lt_succ hk)
      rwa [Nat.add_comm k, ← Nat.add_assoc, ← Nat.add_assoc] at hnext
    rw [load, load, hfirst, hrest]

/-- Copying carries every byte of the words over. -/
theorem bitmapCopy_byte (hm : ∀ b, m b < 256) (hlt : nbits + 31 < 2 ^ 31) {k : ℕ}
    (hk : k < 4 * wordCount nbits) :
    (bitmapCopy known ⟨m, []⟩ dst src nbits).memory (dst + k) = m (src + k) := by
  have hcount : wordCount nbits = (nbits + 31) / 32 := rfl
  rw [bitmapCopy]
  by_cases hs : smallConstNbits known nbits = true
  · rw [if_pos hs]
    rw [smallConstNbits, Bool.and_eq_true, decide_eq_true_eq] at hs
    have hbyte := load_byte hm src 8 k (by omega)
    simp only [assign, store]
    rw [if_pos (by omega), Nat.add_sub_cancel_left, hbyte]
  · rw [if_neg hs, bitsToLongs_of_lt hlt, toUnsigned_words (by omega)]
    dsimp only [memcpy]
    rw [len_of_words (by omega), if_pos (by omega), Nat.add_sub_cancel_left]

/-- Copying carries every bit of the bitmap over. -/
theorem bitmapCopy_bits (hm : ∀ b, m b < 256) (hlt : nbits + 31 < 2 ^ 31) {i : ℕ}
    (hi : i < nbits) :
    testBit i (wordsAt (bitmapCopy known ⟨m, []⟩ dst src nbits).memory dst) =
      testBit i (wordsAt m src) := by
  have hcount : wordCount nbits = (nbits + 31) / 32 := rfl
  have hword : load (bitmapCopy known ⟨m, []⟩ dst src nbits).memory (dst + 4 * (i / 32)) 4 =
      load m (src + 4 * (i / 32)) 4 := load_shift fun k hk => by
    rw [Nat.add_assoc, Nat.add_assoc]
    exact bitmapCopy_byte hm hlt (by omega)
  rw [testBit_eq, testBit_eq, bit, bit, wordsAt, hword, wordsAt]

end BiscuitOS.BitmapStorage
