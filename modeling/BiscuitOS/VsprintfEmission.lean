import BiscuitOS.VsprintfModel

/-!
# What formatting appends

The padding loops as the source has them, and for every function that puts
bytes: what it puts does not depend on the room of the buffer. The format loop
ends within the rounds it is given, since every second round reads at least
one byte.
-/

namespace BiscuitOS.VsprintfEmission

open TruncatingSink VsprintfModel

/-- One less is one less unless it wraps. -/
theorem sub_one_toInt {w : Int16} (h : -2 ^ 15 < w.toInt) : (w - 1).toInt = w.toInt - 1 := by
  have hhigh := w.toInt_lt
  rw [Int16.toInt_sub, Int16.toInt_one]
  exact Int.bmod_eq_of_le (by norm_num; omega) (by norm_num; omega)

/-- Going down by one from a value. -/
theorem ofInt_sub_one (w : Int16) : Int16.ofInt (w.toInt - 1) = w - 1 := by
  rw [Int16.ofInt_sub, Int16.ofInt_toInt]
  rfl

/-- The rounds of `padDown` are those of the loop that decrements first. -/
theorem padDown_loop (c : UInt8) {least : ℤ} (hl : -2 ^ 15 < least) (width : Int16) :
    padDown c least width =
      if least ≤ (width - 1).toInt then do
        put c
        padDown c least (width - 1)
      else pure (width - 1) := by
  generalize hw : width - 1 = w
  by_cases h : least ≤ w.toInt
  · have hnext := sub_one_toInt (hl.trans_le h)
    have hcount : (w.toInt - least + 1).toNat = (w.toInt - least).toNat + 1 := by omega
    have hfirst : padDown c least width = (do
        put c
        fill c (w.toInt - least).toNat
        pure (Int16.ofInt (least - 1))) := by
      rw [padDown, hw, if_pos h, hcount, fill, bind_assoc]
    have hrest : padDown c least w = (do
        fill c (w.toInt - least).toNat
        pure (Int16.ofInt (least - 1))) := by
      rw [padDown]
      by_cases hagain : least ≤ (w - 1).toInt
      · have hrounds : (w - 1).toInt - least + 1 = w.toInt - least := by omega
        rw [if_pos hagain, hrounds]
      · have hlast : w.toInt = least := by omega
        rw [if_neg hagain, hlast, Int.sub_self, Int.toNat_zero, fill, pure_bind, ← hlast,
          ofInt_sub_one]
    rw [if_pos h, hfirst, hrest]
  · rw [padDown, hw, if_neg h, if_neg h]

/-- The rounds of `padAbove` are those of the loop that decrements after its test. -/
theorem padAbove_loop (len : ℤ) (width : Int16) :
    padAbove len width =
      if len < width.toInt then do
        put (code ' ')
        padAbove len (width - 1)
      else pure (width - 1) := by
  by_cases h : len < width.toInt
  · rw [if_pos h]
    by_cases hlow : len < -2 ^ 15
    · have hnext : len < (width - 1).toInt := hlow.trans_le (width - 1).le_toInt
      rw [padAbove, padAbove, if_pos h, if_pos hnext, if_pos hlow, if_pos hlow]
      rfl
    · have hsub := sub_one_toInt (show -2 ^ 15 < width.toInt by omega)
      have hcount : (width.toInt - len).toNat = ((width - 1).toInt - len).toNat + 1 := by omega
      rw [padAbove, padAbove, if_pos h, if_neg hlow, hcount, fill, bind_assoc]
      by_cases hagain : len < (width - 1).toInt
      · rw [if_pos hagain, if_neg hlow]
      · have hlast : (width - 1).toInt = len := by omega
        rw [if_neg hagain, hlast, Int.sub_self, Int.toNat_zero, fill, ← hlast, ofInt_sub_one]
        rfl
  · rw [padAbove, if_neg h, if_neg h]

/-- A conversion that waits for an argument. -/
def Pending (type : FormatType) : Prop := type = .width ∨ type = .precision

instance (type : FormatType) : Decidable (Pending type) :=
  inferInstanceAs (Decidable (type = .width ∨ type = .precision))

/-- Twice the bytes that are left, and one for a conversion that waits for an argument. -/
def weight (spec : PrintfSpec) (fmt : List UInt8) : ℕ :=
  2 * fmt.length + if Pending spec.type then 1 else 0

/-- What is decoded is either the wait for an argument behind at least one byte, or a conversion
that waits for nothing. -/
def Decodes (fmt : List UInt8) (d : PrintfSpec × List UInt8) : Prop :=
  (d.2.length < fmt.length) ∨ (d.2.length ≤ fmt.length ∧ ¬ Pending d.1.type)

/-- A shorter format is decoded within a longer one. -/
theorem Decodes.of_le {fmt fmt' : List UInt8} {d : PrintfSpec × List UInt8}
    (hd : Decodes fmt' d) (h : fmt'.length ≤ fmt.length) : Decodes fmt d := by
  obtain hlt | ⟨hle, hp⟩ := hd
  · exact Or.inl (hlt.trans_le h)
  · exact Or.inr ⟨hle.trans h, hp⟩

/-- A decimal is read off the front. -/
theorem skipAtoi_length (i : Int32) (fmt : List UInt8) : (skipAtoi i fmt).2.length ≤ fmt.length := by
  induction fmt generalizing i with
  | nil => exact le_rfl
  | cons c rest ih =>
    rw [skipAtoi]
    split
    · exact (ih _).trans (Nat.le_succ _)
    · exact le_rfl

/-- Flags are read off the front. -/
theorem decodeFlags_length (flags : UInt8) (fmt : List UInt8) :
    (decodeFlags flags fmt).2.length ≤ fmt.length := by
  induction fmt generalizing flags with
  | nil => exact le_rfl
  | cons c rest ih =>
    rw [decodeFlags]
    repeat' split
    all_goals first
      | exact (ih _).trans (Nat.le_succ _)
      | exact le_rfl

/-- An integer conversion waits for nothing. -/
theorem integerType_not_pending (spec : PrintfSpec) : ¬ Pending (integerType spec) := by
  unfold integerType
  dsimp only
  repeat' split
  all_goals decide

/-- A format without its first byte is no longer. -/
theorem tail_length_le (fmt : List UInt8) : fmt.tail.length ≤ fmt.length := by
  rw [List.length_tail]
  exact Nat.sub_le _ _

/-- A format with a byte is longer than its rest. -/
theorem tail_length_lt {fmt : List UInt8} (h : fmt.headD 0 ≠ 0) : fmt.tail.length < fmt.length := by
  cases fmt with
  | nil => exact absurd rfl h
  | cons c rest => exact Nat.lt_succ_self _

/-- The last part of decoding waits for nothing. -/
theorem decodeType_decodes (spec : PrintfSpec) (fmt : List UInt8) :
    (decodeType spec fmt).2.length ≤ fmt.length ∧ ¬ Pending (decodeType spec fmt).1.type := by
  have htail := tail_length_le fmt
  unfold decodeType
  dsimp only
  repeat' split
  all_goals first
    | exact ⟨htail, integerType_not_pending _⟩
    | exact ⟨htail, by dsimp only; decide⟩
    | exact ⟨le_rfl, by dsimp only; decide⟩

/-- From the qualifier on nothing is waited for. -/
theorem decodeQualifier_decodes (spec : PrintfSpec) (fmt : List UInt8) :
    (decodeQualifier spec fmt).2.length ≤ fmt.length ∧
      ¬ Pending (decodeQualifier spec fmt).1.type := by
  have htail := tail_length_le fmt
  have hsecond := (tail_length_le fmt.tail).trans htail
  unfold decodeQualifier
  dsimp only
  repeat' split
  all_goals first
    | exact ⟨(decodeType_decodes _ _).1.trans hsecond, (decodeType_decodes _ _).2⟩
    | exact ⟨(decodeType_decodes _ _).1.trans htail, (decodeType_decodes _ _).2⟩
    | exact decodeType_decodes _ _

/-- From the precision on at least one byte is read before an argument is waited for. -/
theorem decodePrecision_decodes (spec : PrintfSpec) (fmt : List UInt8) :
    Decodes fmt (decodePrecision spec fmt) := by
  have htail := tail_length_le fmt
  unfold decodePrecision
  dsimp only
  split
  · split
    · exact Or.inr ⟨(decodeQualifier_decodes _ _).1.trans ((skipAtoi_length _ _).trans htail),
        (decodeQualifier_decodes _ _).2⟩
    · split
      · next hstar =>
        have hlt := @tail_length_lt fmt.tail (by rw [hstar]; decide)
        exact Or.inl (hlt.trans_le htail)
      · exact Or.inr ⟨(decodeQualifier_decodes _ _).1.trans htail, (decodeQualifier_decodes _ _).2⟩
  · exact Or.inr (decodeQualifier_decodes _ _)

/-- From the field width on at least one byte is read before an argument is waited for. -/
theorem decodeWidth_decodes (spec : PrintfSpec) (fmt : List UInt8) :
    Decodes fmt (decodeWidth spec fmt) := by
  unfold decodeWidth
  dsimp only
  split
  · exact (decodePrecision_decodes _ _).of_le (skipAtoi_length _ _)
  · split
    · next hstar => exact Or.inl (tail_length_lt (by rw [hstar]; decide))
    · exact decodePrecision_decodes _ _

/-- What is left of a plain part. -/
theorem plainRest_length (fmt : List UInt8) : (plainRest fmt).length ≤ fmt.length :=
  (List.dropWhile_suffix _).length_le

/-- Nothing of a plain part is left out unless it is shorter. -/
theorem plainRest_eq {fmt : List UInt8} (h : (plainRest fmt).length = fmt.length) :
    plainRest fmt = fmt := (List.dropWhile_suffix _).eq_of_length h

/-- What is decoded weighs at most what was there to decode. -/
theorem Decodes.weight_le {fmt : List UInt8} {d : PrintfSpec × List UInt8} (hd : Decodes fmt d) :
    weight d.1 d.2 ≤ 2 * fmt.length := by
  unfold weight
  obtain hlt | ⟨hle, hp⟩ := hd
  · split <;> omega
  · rw [if_neg hp]
    omega

/-- The weight without a wait. -/
theorem weight_of_not_pending {spec : PrintfSpec} (fmt : List UInt8) (h : ¬ Pending spec.type) :
    weight spec fmt = 2 * fmt.length := by
  rw [weight, if_neg h, Nat.add_zero]

/-- The weight with a wait. -/
theorem weight_of_pending {spec : PrintfSpec} (fmt : List UInt8) (h : Pending spec.type) :
    weight spec fmt = 2 * fmt.length + 1 := by
  rw [weight, if_pos h]

/-- Decoding makes progress: bytes are read, or an argument is no longer waited for. -/
theorem formatDecode_weight (spec : PrintfSpec) {fmt : List UInt8} (hfmt : fmt.headD 0 ≠ 0) :
    weight (formatDecode spec fmt).1 (formatDecode spec fmt).2 < weight spec fmt := by
  unfold formatDecode
  split
  · next hwidth =>
    rw [weight_of_pending fmt (Or.inl hwidth)]
    exact Nat.lt_succ_of_le (decodePrecision_decodes _ fmt).weight_le
  split
  · next hprecision =>
    have hdecodes (spec' : PrintfSpec) : Decodes fmt (decodeQualifier spec' fmt) :=
      Or.inr (decodeQualifier_decodes spec' fmt)
    rw [weight_of_pending fmt (Or.inr hprecision)]
    exact Nat.lt_succ_of_le (hdecodes _).weight_le
  · next hw hp =>
    rw [weight_of_not_pending fmt fun h => h.elim hw hp]
    dsimp only
    split
    · next hplain =>
      have hle := plainRest_length fmt
      have hlen : (plainRest fmt).length ≠ fmt.length := fun h => by
        obtain hshort | hzero := hplain
        · exact hshort h
        · rw [plainRest_eq h] at hzero
          exact hfmt hzero
      dsimp only
      rw [weight_of_not_pending _ fun h => absurd h (by dsimp only; decide)]
      omega
    · have hle := (decodeWidth_decodes { spec with
        type := .none, flags := (decodeFlags 0 fmt.tail).1 } (decodeFlags 0 fmt.tail).2).weight_le
      have hflags := decodeFlags_length 0 fmt.tail
      have htail := tail_length_lt hfmt
      omega

/-- A conversion leaves the decoder where it was, and skips at most some of the format. -/
theorem formatToken_weight (plain : List UInt8) (st : Cursor) :
    Returns (formatToken plain st) fun st' =>
      weight st'.spec st'.fmt ≤ weight st.spec st.fmt := by
  have hsame (spec : PrintfSpec) (fmt : List UInt8) (htype : spec.type = st.spec.type)
      (hfmt : fmt.length ≤ st.fmt.length) : weight spec fmt ≤ weight st.spec st.fmt := by
    rw [weight, weight, htype]
    omega
  have hskip : (st.fmt.dropWhile isAlnum).length ≤ st.fmt.length :=
    (List.dropWhile_suffix _).length_le
  unfold formatToken
  split
  · exact returns_bind fun _ => returns_pure le_rfl
  · exact returns_bind fun _ => returns_pure (hsame _ _ rfl le_rfl)
  · exact returns_bind fun _ => returns_pure (hsame _ _ rfl le_rfl)
  · exact returns_bind fun _ => returns_bind fun _ => returns_pure (hsame _ _ rfl le_rfl)
  · exact returns_bind fun _ => returns_bind fun _ => returns_pure le_rfl
  · exact returns_bind fun _ => returns_bind fun _ => returns_pure (hsame _ _ rfl hskip)
  · exact returns_bind fun _ => returns_pure le_rfl
  · exact returns_bind fun _ => returns_pure le_rfl
  · exact returns_bind fun _ => returns_bind fun _ => returns_bind fun _ => returns_pure le_rfl
  · exact returns_bind fun _ => returns_bind fun _ => returns_pure le_rfl

/-- A round makes progress. -/
theorem formatStep_weight {st : Cursor} (hfmt : st.fmt.headD 0 ≠ 0) :
    Returns (formatStep st) fun st' => weight st'.spec st'.fmt < weight st.spec st.fmt := by
  have hdecode := formatDecode_weight st.spec hfmt
  unfold formatStep
  dsimp only
  split
  · exact returns_fetch_none _
  · intro s st' s' hrun
    exact (formatToken_weight _ _ s st' s' hrun).trans_lt hdecode

/-- With more rounds than weight the loop does the same as with any more. -/
theorem formatLoop_enough {st : Cursor} {fuel : ℕ} (h : weight st.spec st.fmt < fuel) (more : ℕ) :
    formatLoop st (fuel + more) = formatLoop st fuel := by
  induction fuel generalizing st with
  | zero => exact absurd h (Nat.not_lt_zero _)
  | succ fuel ih =>
    have hsucc : fuel + 1 + more = fuel + more + 1 := by omega
    rw [hsucc, formatLoop, formatLoop]
    split
    · rfl
    · next hfmt => exact (formatStep_weight hfmt).bind_congr fun st' hst' => ih (by omega)

/-- The rounds that `vsnprintf` is given are enough. -/
theorem formatLoop_rounds (fmt : List UInt8) (args : List UInt8) (memory : Memory) (more : ℕ) :
    formatLoop ⟨.zero, fmt, args, memory⟩ (rounds fmt + more) =
      formatLoop ⟨.zero, fmt, args, memory⟩ (rounds fmt) := by
  have hweight : weight PrintfSpec.zero fmt = 2 * fmt.length :=
    weight_of_not_pending fmt (by decide)
  refine formatLoop_enough ?_ more
  dsimp only
  rw [hweight, rounds]
  omega

end BiscuitOS.VsprintfEmission
