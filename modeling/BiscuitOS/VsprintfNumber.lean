import BiscuitOS.VsprintfDecimal
import BiscuitOS.VsprintfEmission

/-!
# Integer conversions

What `number` puts, as one list computed from the number and the spec, and the
rendering of integer conversions by sign, prefix, precision and width. The width
is a budget of 16 bits, from which every part of the text is taken and which
every padding loop decrements at least once.
-/

namespace BiscuitOS.VsprintfNumber

open TruncatingSink VsprintfModel VsprintfDecimal VsprintfEmission

/-- How often a loop `while (--width >= 0)` puts its character. -/
def rounds (width : Int16) : ℕ := ((width - 1).toInt + 1).toNat

/-- The width behind such a loop. -/
def rest (width : Int16) : Int16 := if 0 ≤ (width - 1).toInt then -1 else width - 1

/-- A flag is set. -/
def Has (spec : PrintfSpec) (flag : UInt8) : Prop := spec.flags &&& flag ≠ 0

instance (spec : PrintfSpec) (flag : UInt8) : Decidable (Has spec flag) :=
  inferInstanceAs (Decidable (spec.flags &&& flag ≠ 0))

/-- `i` or the precision, whichever is larger, as a count. -/
def precisionOf (spec : PrintfSpec) (count : ℕ) : ℕ := max spec.precision.toInt.toNat count

/-- The width behind the leading spaces, and how many there are. -/
def leading (spec : PrintfSpec) (width : Int16) : ℕ × Int16 :=
  if spec.flags &&& (zeropad + left) = 0 then (rounds width, rest width) else (0, width)

/-- The width behind the inner padding, and how much there is. -/
def inner (spec : PrintfSpec) (width : Int16) : ℕ × Int16 :=
  if spec.flags &&& left = 0 then (rounds width, rest width) else (0, width)

/-- The parts of the text in a row, with the numbers of padding characters. -/
def assemble (spec : PrintfSpec) (before between behind zeros : ℕ) (sgn pfx ds : List UInt8) :
    List UInt8 :=
  List.replicate before (code ' ') ++ (sgn ++ (pfx ++
    (List.replicate between (if spec.flags &&& zeropad ≠ 0 then code '0' else code ' ') ++
      (List.replicate zeros (code '0') ++ (ds ++ List.replicate behind (code ' '))))))

/-- The text for digits that were computed, from the width that is left for padding. -/
def textOf (spec : PrintfSpec) (width : Int16) (sgn pfx tmp : List UInt8) : List UInt8 :=
  let zeros := precisionOf spec tmp.length - tmp.length
  let first := leading spec width
  let second := inner spec first.2
  assemble spec first.1 second.1 (rounds second.2) zeros sgn pfx tmp.reverse

variable {num : UInt64} {spec : PrintfSpec} {w : Int16} {c : UInt8}

/-- A loop that decrements first puts its rounds. -/
theorem puts_padDown_zero (c : UInt8) (w : Int16) :
    Puts (padDown c 0 w) (rest w) (List.replicate (rounds w) c) := by
  rw [padDown, rounds, rest]
  by_cases h : 0 ≤ (w - 1).toInt
  · rw [if_pos h, if_pos h, Int.sub_zero]
    have hfill := (puts_fill c ((w - 1).toInt + 1).toNat).bind
      (f := fun _ => pure (Int16.ofInt (0 - 1))) (puts_pure _)
    rwa [List.append_nil] at hfill
  · have hnone : ((w - 1).toInt + 1).toNat = 0 := by omega
    rw [if_neg h, if_neg h, hnone]
    exact puts_pure _

/-- The leading spaces. -/
theorem puts_leading (spec : PrintfSpec) (w : Int16) :
    Puts (padIf (spec.flags &&& (zeropad + left) = 0) (code ' ') w) (leading spec w).2
      (List.replicate (leading spec w).1 (code ' ')) := by
  rw [padIf, leading]
  split
  · exact puts_padDown_zero _ _
  · exact puts_pure _

/-- The inner padding. -/
theorem puts_inner (spec : PrintfSpec) (c : UInt8) (w : Int16) :
    Puts (padIf (spec.flags &&& left = 0) c w) (inner spec w).2
      (List.replicate (inner spec w).1 c) := by
  rw [padIf, inner]
  split
  · exact puts_padDown_zero _ _
  · exact puts_pure _

/-- The precision as it is raised to the number of digits. -/
def raised (spec : PrintfSpec) (n : ℕ) : Int16 :=
  if spec.precision.toInt < n then Int16.ofNat n else spec.precision

/-- The value of the raised precision. -/
theorem raised_toInt (spec : PrintfSpec) {n : ℕ} (hn : 0 < n) (hle : n < 2 ^ 15) :
    (raised spec n).toInt = precisionOf spec n := by
  have hsmall : (Int16.ofNat n).toInt = n := by
    have hsize : Int16.size = 65536 := rfl
    rw [Int16.toInt_ofNat', hsize]
    exact Int.bmod_eq_of_le (by omega) (by omega)
  rw [raised, precisionOf]
  split
  · rw [hsmall]
    omega
  · omega

/-- The zeros up to the precision. -/
theorem puts_zeros (spec : PrintfSpec) {n : ℕ} (hn : 0 < n) (hle : n < 2 ^ 15) :
    ∃ left, Puts (padDown (code '0') n (raised spec n)) left
      (List.replicate (precisionOf spec n - n) (code '0')) := by
  have hval := raised_toInt spec hn hle
  have hge : n ≤ precisionOf spec n := le_max_right _ _
  have hsub : (raised spec n - 1).toInt = (raised spec n).toInt - 1 := sub_one_toInt (by omega)
  rw [padDown]
  by_cases h : (n : ℤ) ≤ (raised spec n - 1).toInt
  · have hcount : ((raised spec n - 1).toInt - n + 1).toNat = precisionOf spec n - n := by omega
    have hfill := (puts_fill (code '0') ((raised spec n - 1).toInt - n + 1).toNat).bind
      (f := fun _ => pure (Int16.ofInt (n - 1))) (puts_pure _)
    rw [if_pos h]
    rw [List.append_nil, hcount] at hfill
    rw [hcount]
    exact ⟨_, hfill⟩
  · have hcount : precisionOf spec n - n = 0 := by omega
    rw [if_neg h, hcount]
    exact ⟨_, puts_pure _⟩

/-- The width that is left once sign, prefix and precision are taken from it. -/
def widthLeft (num : UInt64) (spec : PrintfSpec) (n : ℕ) : Int16 :=
  (prefixOf spec (spec.flags &&& small) (signOf num spec).2.2).2 - raised spec n

/-- `number` puts one text, made of the sign, the prefix and the digits. -/
theorem puts_number {tmp : List UInt8}
    (htmp : numberDigits (signOf num spec).2.1 spec.base (spec.flags &&& small) = some tmp)
    (hpos : 0 < tmp.length) (hle : tmp.length < 2 ^ 15) :
    Puts (number num spec) () (textOf spec (widthLeft num spec tmp.length) (signOf num spec).1
      (prefixOf spec (spec.flags &&& small) (signOf num spec).2.2).1 tmp) := by
  obtain ⟨_, hzeros⟩ := puts_zeros spec hpos hle
  unfold number
  dsimp only
  rw [htmp]
  refine (puts_fetch tmp).bind ?_
  refine (puts_leading spec (widthLeft num spec tmp.length)).bind ?_
  refine (puts_putAll _).bind ?_
  refine (puts_putAll _).bind ?_
  refine (puts_inner spec _ _).bind ?_
  refine hzeros.bind ?_
  refine (puts_putAll _).bind ?_
  have hend := (puts_padDown_zero (code ' ') (inner spec
    (leading spec (widthLeft num spec tmp.length)).2).2).bind (f := fun _ => pure ()) (puts_pure ())
  rwa [List.append_nil] at hend

/-- The digits of a number in a base, least significant first; zero has one digit. -/
def baseDigits (b n : ℕ) : List ℕ := if n = 0 then [0] else Nat.digits b n

/-- The character of a digit, in lower case or not. -/
def digitChar (lower : Bool) (d : ℕ) : UInt8 :=
  if d < 10 then UInt8.ofNat (d + 48) else UInt8.ofNat (d - 10 + if lower then 97 else 65)

/-- The digits of a number, one at a time. -/
theorem baseDigits_step {b : ℕ} (hb : 1 < b) (n : ℕ) :
    baseDigits b n = n % b :: if n / b = 0 then [] else baseDigits b (n / b) := by
  rw [baseDigits, baseDigits]
  by_cases hn : n = 0
  · rw [if_pos hn, hn, Nat.zero_mod, Nat.zero_div, if_pos rfl]
  · rw [if_neg hn, Nat.digits_def' hb (Nat.pos_of_ne_zero hn)]
    by_cases hz : n / b = 0
    · rw [if_pos hz, hz, Nat.digits_zero]
    · rw [if_neg hz, if_neg hz]

/-- A number has at least one digit. -/
theorem baseDigits_length_pos {b : ℕ} (hb : 1 < b) (n : ℕ) : 0 < (baseDigits b n).length := by
  rw [baseDigits_step hb, List.length_cons]
  exact Nat.succ_pos _

/-- The digits are below the base. -/
theorem baseDigits_lt {b : ℕ} (hb : 1 < b) {n d : ℕ} (hd : d ∈ baseDigits b n) : d < b := by
  rw [baseDigits] at hd
  split at hd
  · rw [List.mem_singleton.mp hd]
    omega
  · exact Nat.digits_lt_base hb hd

/-- The bit of lower case is the only one of its mask. -/
theorem and_small (f : UInt8) : f &&& small = 0 ∨ f &&& small = small := by
  have hbit := Nat.and_two_pow f.toNat 5
  have hand : (f &&& small).toNat = f.toNat &&& 2 ^ 5 := UInt8.toNat_and _ _
  rw [← UInt8.toNat_inj, ← UInt8.toNat_inj, hand, hbit]
  cases f.toNat.testBit 5
  · exact Or.inl rfl
  · exact Or.inr rfl

/-- The table of digits gives the characters. -/
theorem digits_getD (f : UInt8) {d : ℕ} (hd : d < 16) :
    digits.getD d 0 ||| f &&& small = digitChar (f &&& small ≠ 0) d := by
  have htable : ∀ d < 16, digits.getD d 0 ||| 0 = digitChar false d ∧
      digits.getD d 0 ||| small = digitChar true d := by decide
  rcases and_small f with hz | hs
  · rw [hz]
    exact (htable d hd).1
  · rw [hs]
    exact (htable d hd).2

/-- The digits by shifts are the digits in the base. -/
theorem putShifted_eq (f mask : UInt8) (shift : UInt64) {k : ℕ} (hk : 0 < k) (hk4 : k ≤ 4)
    (hmask : mask.toNat = 2 ^ k - 1) (hshift : shift.toNat = k) (fuel : ℕ) :
    ∀ num : UInt64, num.toNat < 2 ^ (k * (fuel + 1)) →
      putShifted mask (f &&& small) shift num (fuel + 1) =
        (baseDigits (2 ^ k) num.toNat).map (digitChar (f &&& small ≠ 0)) := by
  have hbase : 1 < 2 ^ k := Nat.one_lt_two_pow hk.ne'
  have hnext : ∀ num : UInt64, (num >>> shift).toNat = num.toNat / 2 ^ k := fun num => by
    rw [UInt64.toNat_shiftRight, hshift, Nat.mod_eq_of_lt (by omega), Nat.shiftRight_eq_div_pow]
  have hzero : ∀ num : UInt64, num >>> shift = 0 ↔ num.toNat / 2 ^ k = 0 := fun num => by
    rw [← UInt64.toNat_inj, hnext]
    rfl
  have hdigit : ∀ num : UInt64, (num.toUInt8 &&& mask).toNat = num.toNat % 2 ^ k := fun num => by
    have hdvd : 2 ^ k ∣ 2 ^ 8 := Nat.pow_dvd_pow 2 (by omega)
    rw [UInt8.toNat_and, hmask, Nat.and_two_pow_sub_one_eq_mod, UInt64.toNat_toUInt8]
    exact Nat.mod_mod_of_dvd _ hdvd
  have hle : 2 ^ k ≤ 16 := Nat.pow_le_pow_right (by decide) hk4
  have hchar : ∀ num : UInt64, digits.getD (num.toUInt8 &&& mask).toNat 0 ||| f &&& small =
      digitChar (f &&& small ≠ 0) (num.toNat % 2 ^ k) := fun num => by
    rw [hdigit]
    exact digits_getD f ((Nat.mod_lt _ (Nat.two_pow_pos k)).trans_le hle)
  induction fuel with
  | zero =>
    intro num hnum
    rw [Nat.zero_add, Nat.mul_one] at hnum
    have hlast : num.toNat / 2 ^ k = 0 := Nat.div_eq_of_lt hnum
    rw [putShifted, if_pos ((hzero num).mpr hlast), hchar, baseDigits_step hbase, if_pos hlast]
    rfl
  | succ fuel ih =>
    intro num hnum
    rw [putShifted, hchar, baseDigits_step hbase, List.map_cons]
    congr 1
    by_cases hlast : num.toNat / 2 ^ k = 0
    · rw [if_pos ((hzero num).mpr hlast), if_pos hlast]
      rfl
    · have hlt : (num >>> shift).toNat < 2 ^ (k * (fuel + 1)) := by
        rw [hnext]
        refine Nat.div_lt_of_lt_mul (hnum.trans_eq ?_)
        rw [← pow_add]
        ring_nf
      rw [if_neg (fun h => hlast ((hzero num).mp h)), if_neg hlast, ih _ hlt, hnext]

/-- A base of the conversions. -/
def Based (spec : PrintfSpec) : Prop := spec.base = 8 ∨ spec.base = 10 ∨ spec.base = 16

/-- The characters of decimal digits. -/
theorem ascii_eq_map (lower : Bool) {ds : List ℕ} (h : ∀ d ∈ ds, d < 10) :
    ascii ds = ds.map (digitChar lower) :=
  List.map_congr_left fun d hd => by rw [digitChar, if_pos (h d hd)]

/-- The digits of `number`, up to the numbers that `put_dec` converts. -/
theorem numberDigits_eq (hb : Based spec) (hten : spec.base = 10 → num.toNat < 100000) :
    numberDigits num spec.base (spec.flags &&& small) =
      some ((baseDigits spec.base.toNat num.toNat).map (digitChar (Has spec small))) := by
  have hlt := num.toNat_lt
  have hsmall : decide (spec.flags &&& small ≠ 0) = decide (Has spec small) := rfl
  rw [numberDigits]
  by_cases hz : num = 0
  · rw [if_pos hz, hz, UInt64.toNat_zero, baseDigits, if_pos rfl]
    rfl
  · rw [if_neg hz]
    rcases hb with h8 | h10 | h16
    · have hpow : num.toNat < 2 ^ (3 * (63 + 1)) := hlt.trans (by decide)
      rw [h8, if_pos (by decide), if_neg (by decide), ← hsmall]
      exact congrArg some (putShifted_eq spec.flags (8 - 1) 3 (by decide) (by decide) rfl rfl 63 num
        hpow)
    · have hnum : num < 100000 := UInt64.lt_iff_toNat_lt.mpr (hten h10)
      have hsame : num.toUInt32.toNat = num.toNat := by
        rw [UInt64.toNat_toUInt32]
        exact Nat.mod_eq_of_lt ((hten h10).trans (by decide))
      have hdigits : ∀ d ∈ decimal num.toNat, d < 10 := fun d hd => baseDigits_lt (by decide) hd
      rw [h10, if_neg (by decide), putDec, if_pos hnum,
        putDecTrunc_eq (by rw [hsame]; exact hten h10), hsame,
        ascii_eq_map (Has spec small) hdigits]
      rfl
    · have hpow : num.toNat < 2 ^ (4 * (63 + 1)) := hlt.trans (by decide)
      rw [h16, if_pos (by decide), if_pos rfl, ← hsmall]
      exact congrArg some (putShifted_eq spec.flags (16 - 1) 4 (by decide) (by decide) rfl rfl 63
        num hpow)

/-- A value that is printed with a minus sign. -/
def Negative (num : UInt64) (spec : PrintfSpec) : Prop := Has spec sign ∧ num.toInt64 < 0

instance (num : UInt64) (spec : PrintfSpec) : Decidable (Negative num spec) :=
  inferInstanceAs (Decidable (Has spec sign ∧ num.toInt64 < 0))

/-- The magnitude of the value. -/
def magnitude (num : UInt64) (spec : PrintfSpec) : ℕ :=
  if Negative num spec then num.toInt64.toInt.natAbs else num.toNat

/-- The sign character: a minus for negative signed values, and a plus or a space where a flag asks
for it. -/
def signText (num : UInt64) (spec : PrintfSpec) : List UInt8 :=
  if Negative num spec then [code '-']
  else if Has spec sign ∧ Has spec plus then [code '+']
  else if Has spec sign ∧ Has spec space then [code ' ']
  else []

/-- The prefix of the base. -/
def prefixText (spec : PrintfSpec) : List UInt8 :=
  if ¬ Has spec special ∨ spec.base = 10 then []
  else if spec.base = 16 then [code '0', if Has spec small then code 'x' else code 'X']
  else [code '0']

/-- The digits, at least as many as the precision says. -/
def digitText (num : UInt64) (spec : PrintfSpec) : List UInt8 :=
  let ds := (baseDigits spec.base.toNat (magnitude num spec)).map (digitChar (Has spec small))
  List.replicate (spec.precision.toInt.toNat - ds.length) (code '0') ++ ds.reverse

/-- The rendering of an integer: sign, prefix and digits, padded to the width. -/
def rendering (num : UInt64) (spec : PrintfSpec) : List UInt8 :=
  let body := signText num spec ++ (prefixText spec ++ digitText num spec)
  let pad := spec.fieldWidth.toInt.toNat - body.length
  if Has spec left then body ++ List.replicate pad (code ' ')
  else if Has spec zeropad then
    signText num spec ++ (prefixText spec ++ (List.replicate pad (code '0') ++ digitText num spec))
  else List.replicate pad (code ' ') ++ body

/-- The rendering is as long as the width, or as the text without padding. -/
theorem rendering_length (num : UInt64) (spec : PrintfSpec) :
    (rendering num spec).length = max spec.fieldWidth.toInt.toNat
      ((signText num spec).length + (prefixText spec).length + (digitText num spec).length) := by
  simp only [rendering]
  split_ifs <;> simp only [List.length_append, List.length_replicate] <;> omega

/-- The three ways of the sign. -/
theorem signOf_cases (num : UInt64) (spec : PrintfSpec) :
    (Negative num spec ∧ signOf num spec =
      ([code '-'], (-num.toInt64).toUInt64, spec.fieldWidth - 1)) ∨
    (¬ Negative num spec ∧ Has spec sign ∧ Has spec plus ∧
      signOf num spec = ([code ' '], num, spec.fieldWidth - 1)) ∨
    (¬ Negative num spec ∧ ¬ (Has spec sign ∧ Has spec plus) ∧
      signOf num spec = ([], num, spec.fieldWidth)) := by
  have hneg : Negative num spec ↔ spec.flags &&& sign ≠ 0 ∧ num.toInt64 < 0 := Iff.rfl
  by_cases hs : spec.flags &&& sign ≠ 0
  · by_cases hlt : num.toInt64 < 0
    · exact Or.inl ⟨⟨hs, hlt⟩, by rw [signOf, if_pos hs, if_pos hlt]⟩
    · by_cases hp : spec.flags &&& plus ≠ 0
      · exact Or.inr (Or.inl ⟨fun h => hlt h.2, hs, hp,
          by rw [signOf, if_pos hs, if_neg hlt, if_pos hp]⟩)
      · exact Or.inr (Or.inr ⟨fun h => hlt h.2, fun h => hp h.2,
          by rw [signOf, if_pos hs, if_neg hlt, if_neg hp]⟩)
  · exact Or.inr (Or.inr ⟨fun h => hs h.1, fun h => hs h.1, by rw [signOf, if_neg hs]⟩)

/-- The magnitude that `number` prints. -/
theorem signOf_magnitude (num : UInt64) (spec : PrintfSpec) :
    (signOf num spec).2.1.toNat = magnitude num spec := by
  rcases signOf_cases num spec with ⟨hn, he⟩ | ⟨hn, -, -, he⟩ | ⟨hn, -, he⟩
  · have hneg : (-num.toInt64).toUInt64 = -num := rfl
    have hval : num.toInt64.toInt = Int.bmod num.toNat (2 ^ 64) :=
      BitVec.toInt_eq_toNat_bmod num.toBitVec
    have hlt : num.toInt64.toInt < 0 := Int64.lt_iff_toInt_lt.mp hn.2
    have hbound := num.toNat_lt
    have hsize : UInt64.size = 18446744073709551616 := rfl
    rw [he, magnitude, if_pos hn, hneg, UInt64.toNat_neg, hsize]
    rw [hval, Int.bmod_def] at hlt ⊢
    split at hlt <;> split <;> omega
  · rw [he, magnitude, if_neg hn]
  · rw [he, magnitude, if_neg hn]

/-- Subtraction in 16 bits. -/
theorem ofInt_toInt_sub (w : Int16) (n : ℕ) (v : Int16) (hv : v = Int16.ofInt n) :
    w - v = Int16.ofInt (w.toInt - n) := by
  rw [Int16.ofInt_sub, Int16.ofInt_toInt, hv]

/-- The sign character is taken from the width. -/
theorem signOf_width (num : UInt64) (spec : PrintfSpec) :
    (signOf num spec).2.2 =
      Int16.ofInt (spec.fieldWidth.toInt - (signOf num spec).1.length) := by
  rcases signOf_cases num spec with ⟨-, he⟩ | ⟨-, -, -, he⟩ | ⟨-, -, he⟩
  · rw [he]
    exact ofInt_toInt_sub _ 1 1 rfl
  · rw [he]
    exact ofInt_toInt_sub _ 1 1 rfl
  · rw [he]
    simp only [List.length_nil, Nat.cast_zero, Int.sub_zero, Int16.ofInt_toInt]

/-- The prefix, and that it is taken from the width. -/
theorem prefixOf_eq (spec : PrintfSpec) (w : ℤ) :
    prefixOf spec (spec.flags &&& small) (Int16.ofInt w) =
      (prefixText spec, Int16.ofInt (w - (prefixText spec).length)) := by
  have hone : (1 : Int16) = Int16.ofInt 1 := rfl
  have hlower : code 'X' ||| spec.flags &&& small =
      if Has spec small then code 'x' else code 'X' := by
    rcases and_small spec.flags with hz | hs
    · rw [if_neg (fun h : Has spec small => h hz), hz]
      rfl
    · rw [if_pos (show Has spec small from fun h => absurd (hs.symm.trans h) (by decide)), hs]
      rfl
  rw [prefixOf, prefixText]
  by_cases hp : spec.flags &&& special ≠ 0 ∧ spec.base ≠ 10
  · have hn : ¬ (¬ Has spec special ∨ spec.base = 10) := fun h => h.elim (fun h => h hp.1) hp.2
    rw [if_pos hp, if_neg hn]
    by_cases h16 : spec.base = 16
    · rw [if_pos h16, if_pos h16, hlower, hone, ← Int16.ofInt_sub, ← Int16.ofInt_sub]
      congr 2
      simp only [List.length_cons, List.length_nil]
      omega
    · rw [if_neg h16, if_neg h16, hone, ← Int16.ofInt_sub]
      rfl
  · have hn : ¬ Has spec special ∨ spec.base = 10 := by
      rw [not_and_or, not_not] at hp
      exact hp.imp (fun h hs => hs h) fun h => not_not.mp h
    rw [if_neg hp, if_pos hn, List.length_nil, Nat.cast_zero, Int.sub_zero]

/-- The width that is left for padding, before it is cut to 16 bits. -/
def budget (num : UInt64) (spec : PrintfSpec) (n : ℕ) : ℤ :=
  spec.fieldWidth.toInt - (signOf num spec).1.length - (prefixText spec).length -
    precisionOf spec n

/-- The width that is left, in 16 bits. -/
theorem widthLeft_eq (num : UInt64) (spec : PrintfSpec) {n : ℕ} (hn : 0 < n) (hle : n < 2 ^ 15) :
    widthLeft num spec n = Int16.ofInt (budget num spec n) := by
  have hr : raised spec n = Int16.ofInt (precisionOf spec n) := by
    rw [← raised_toInt spec hn hle, Int16.ofInt_toInt]
  rw [widthLeft, signOf_width, prefixOf_eq, hr, ← Int16.ofInt_sub]
  rfl

/-- A flag that is not among two. -/
theorem no_flags_iff (spec : PrintfSpec) :
    spec.flags &&& (zeropad + left) = 0 ↔ ¬ Has spec zeropad ∧ ¬ Has spec left := by
  have hboth : (spec.flags &&& (zeropad + left)).toNat = spec.flags.toNat &&& (1 ||| 16) :=
    UInt8.toNat_and _ _
  have hzero : (spec.flags &&& zeropad).toNat = spec.flags.toNat &&& 1 := UInt8.toNat_and _ _
  have hleft : (spec.flags &&& left).toNat = spec.flags.toNat &&& 16 := UInt8.toNat_and _ _
  rw [Has, Has, not_not, not_not, ← UInt8.toNat_inj, ← UInt8.toNat_inj, ← UInt8.toNat_inj, hboth,
    hzero, hleft, Nat.and_or_distrib_left]
  exact Nat.or_eq_zero_iff

/-- The padding characters in front, inside and behind. -/
def paddings (spec : PrintfSpec) (w : Int16) : ℕ × ℕ × ℕ :=
  ((leading spec w).1, (inner spec (leading spec w).2).1,
    rounds (inner spec (leading spec w).2).2)

/-- How many padding loops run for the flags; each decrements the width at least once. -/
def loops (spec : PrintfSpec) : ℕ := if Has spec left then 1 else if Has spec zeropad then 2 else 3

variable {t : ℤ}

/-- The width that a loop tests first. -/
theorem next_toInt (t : ℤ) : (Int16.ofInt t - 1).toInt = Int.bmod (t - 1) 65536 := by
  have hone : (1 : Int16) = Int16.ofInt 1 := rfl
  rw [hone, ← Int16.ofInt_sub, Int16.toInt_ofInt]

/-- With a budget left, a loop uses all of it. -/
theorem rounds_of_pos (h : 1 ≤ t) (hhigh : t < 2 ^ 15) :
    rounds (Int16.ofInt t) = t.toNat ∧ rest (Int16.ofInt t) = Int16.ofInt (-1) := by
  have hnext : Int.bmod (t - 1) 65536 = t - 1 := Int.bmod_eq_of_le (by omega) (by omega)
  rw [rounds, rest, next_toInt, hnext, if_pos (by omega)]
  exact ⟨by omega, rfl⟩

/-- Without a budget a loop only decrements. -/
theorem rounds_of_nonpos (h : t ≤ 0) (hlow : -2 ^ 15 ≤ t - 1) :
    rounds (Int16.ofInt t) = 0 ∧ rest (Int16.ofInt t) = Int16.ofInt (t - 1) := by
  have hone : (1 : Int16) = Int16.ofInt 1 := rfl
  have hnext : Int.bmod (t - 1) 65536 = t - 1 := Int.bmod_eq_of_le (by omega) (by omega)
  rw [rounds, rest, next_toInt, hnext, if_neg (by omega), hone, ← Int16.ofInt_sub]
  exact ⟨by omega, rfl⟩

/-- A budget that wraps is spent on tens of thousands of characters. -/
theorem rounds_of_wrap (h : t - 1 < -2 ^ 15) (hlow : -2 ^ 15 - 3 ≤ t) :
    32765 ≤ rounds (Int16.ofInt t) := by
  have hnext : Int.bmod (t - 1) 65536 = t - 1 + 65536 := by
    rw [Int.bmod_def]
    split <;> omega
  rw [rounds, next_toInt, hnext]
  omega

/-- Left justified, there is padding behind only. -/
theorem paddings_left (hl : Has spec left) (w : Int16) : paddings spec w = (0, 0, rounds w) := by
  have hl' : ¬ spec.flags &&& left = 0 := hl
  have hno : ¬ spec.flags &&& (zeropad + left) = 0 := fun h => ((no_flags_iff spec).mp h).2 hl
  rw [paddings, leading, if_neg hno, inner, if_neg hl']

/-- With zeros, there is padding inside. -/
theorem paddings_zeropad (hl : ¬ Has spec left) (hz : Has spec zeropad) (w : Int16) :
    paddings spec w = (0, rounds w, rounds (rest w)) := by
  have hl' : spec.flags &&& left = 0 := not_not.mp hl
  have hno : ¬ spec.flags &&& (zeropad + left) = 0 := fun h => ((no_flags_iff spec).mp h).1 hz
  rw [paddings, leading, if_neg hno, inner, if_pos hl']

/-- Without these flags, all three loops run. -/
theorem paddings_plain (hl : ¬ Has spec left) (hz : ¬ Has spec zeropad) (w : Int16) :
    paddings spec w = (rounds w, rounds (rest w), rounds (rest (rest w))) := by
  have hl' : spec.flags &&& left = 0 := not_not.mp hl
  have hno : spec.flags &&& (zeropad + left) = 0 := (no_flags_iff spec).mpr ⟨hz, hl⟩
  rw [paddings, leading, if_pos hno, inner, if_pos hl']

/-- With a budget left, it is spent where the flags say. -/
theorem paddings_of_pos (h : 1 ≤ t) (hhigh : t < 2 ^ 15) : paddings spec (Int16.ofInt t) =
    if Has spec left then (0, 0, t.toNat) else if Has spec zeropad then (0, t.toNat, 0)
      else (t.toNat, 0, 0) := by
  obtain ⟨hr, hw⟩ := rounds_of_pos h hhigh
  obtain ⟨hr1, hw1⟩ := rounds_of_nonpos (t := -1) (by decide) (by decide)
  obtain ⟨hr2, -⟩ := rounds_of_nonpos (t := -1 - 1) (by decide) (by decide)
  by_cases hl : Has spec left
  · rw [paddings_left hl, if_pos hl, hr]
  · by_cases hz : Has spec zeropad
    · rw [paddings_zeropad hl hz, if_neg hl, if_pos hz, hr, hw, hr1]
    · rw [paddings_plain hl hz, if_neg hl, if_neg hz, hr, hw, hr1, hw1, hr2]

/-- Without a budget nothing is padded, as long as no loop wraps. -/
theorem paddings_of_nonpos (h : t ≤ 0) (hlow : -2 ^ 15 ≤ t - loops spec) :
    paddings spec (Int16.ofInt t) = (0, 0, 0) := by
  rw [loops] at hlow
  by_cases hl : Has spec left
  · rw [if_pos hl] at hlow
    obtain ⟨hr, -⟩ := rounds_of_nonpos h hlow
    rw [paddings_left hl, hr]
  · rw [if_neg hl] at hlow
    by_cases hz : Has spec zeropad
    · rw [if_pos hz] at hlow
      obtain ⟨hr, hw⟩ := rounds_of_nonpos h (by omega)
      obtain ⟨hr1, -⟩ := rounds_of_nonpos (t := t - 1) (by omega) (by omega)
      rw [paddings_zeropad hl hz, hr, hw, hr1]
    · rw [if_neg hz] at hlow
      obtain ⟨hr, hw⟩ := rounds_of_nonpos h (by omega)
      obtain ⟨hr1, hw1⟩ := rounds_of_nonpos (t := t - 1) (by omega) (by omega)
      obtain ⟨hr2, -⟩ := rounds_of_nonpos (t := t - 1 - 1) (by omega) (by omega)
      rw [paddings_plain hl hz, hr, hw, hr1, hw1, hr2]

/-- Where a loop wraps, there is padding although the width is used up. -/
theorem paddings_of_wrap (h : t - loops spec < -2 ^ 15) (hlow : -2 ^ 15 - 3 ≤ t) :
    32765 ≤ (paddings spec (Int16.ofInt t)).1 + (paddings spec (Int16.ofInt t)).2.1 +
      (paddings spec (Int16.ofInt t)).2.2 := by
  have hfirst := fun hw : t - 1 < -2 ^ 15 => rounds_of_wrap hw hlow
  rw [loops] at h
  by_cases hl : Has spec left
  · rw [if_pos hl] at h
    have hr := hfirst h
    rw [paddings_left hl]
    dsimp only
    omega
  · rw [if_neg hl] at h
    by_cases hz : Has spec zeropad
    · rw [if_pos hz] at h
      rw [paddings_zeropad hl hz]
      dsimp only
      by_cases hw : t - 1 < -2 ^ 15
      · have hr := hfirst hw
        omega
      · obtain ⟨-, hnext⟩ := rounds_of_nonpos (t := t) (by omega) (by omega)
        have hr := rounds_of_wrap (t := t - 1) (by omega) (by omega)
        rw [hnext]
        omega
    · rw [if_neg hz] at h
      rw [paddings_plain hl hz]
      dsimp only
      by_cases hw : t - 1 < -2 ^ 15
      · have hr := hfirst hw
        omega
      · obtain ⟨-, hnext⟩ := rounds_of_nonpos (t := t) (by omega) (by omega)
        rw [hnext]
        by_cases hw' : t - 1 - 1 < -2 ^ 15
        · have hr := rounds_of_wrap (t := t - 1) hw' (by omega)
          omega
        · obtain ⟨-, hnext'⟩ := rounds_of_nonpos (t := t - 1) (by omega) (by omega)
          have hr := rounds_of_wrap (t := t - 1 - 1) (by omega) (by omega)
          rw [hnext']
          omega

/-- The characters of the digits, least significant first. -/
def digitChars (num : UInt64) (spec : PrintfSpec) : List UInt8 :=
  (baseDigits spec.base.toNat (magnitude num spec)).map (digitChar (Has spec small))

/-- How many digits the number has. -/
def digitCount (num : UInt64) (spec : PrintfSpec) : ℕ := (digitChars num spec).length

/-- The conversions that are asked for: a base, a width, and numbers that `put_dec` converts. -/
structure Conversion (num : UInt64) (spec : PrintfSpec) : Prop where
  /-- The base is 8, 10 or 16. -/
  based : Based spec
  /-- The width is one, or none, which is -1. -/
  width : -1 ≤ spec.fieldWidth.toInt
  /-- Decimal numbers have at most five digits. -/
  decimal : spec.base = 10 → magnitude num spec < 100000

/-- `number` renders the value: a value that is not negative is printed without a plus, and with
a space only where the width leaves room for it in front; and the width is not used up so far
that it wraps. -/
structure Rendered (num : UInt64) (spec : PrintfSpec) : Prop where
  plus : Has spec sign → ¬ Negative num spec → ¬ Has spec plus
  space : Has spec sign → ¬ Negative num spec → Has spec space →
    ¬ Has spec left ∧ ¬ Has spec zeropad ∧ 1 ≤ budget num spec (digitCount num spec)
  room : 1 ≤ budget num spec (digitCount num spec) ∨
    -2 ^ 15 ≤ budget num spec (digitCount num spec) - loops spec

/-- The base is larger than one. -/
theorem Based.one_lt (h : Based spec) : 1 < spec.base.toNat := by
  rcases h with h | h | h
  · rw [h]
    decide
  · rw [h]
    decide
  · rw [h]
    decide

/-- There are digits, and not more than there are bits. -/
theorem digitCount_bounds (h : Based spec) : 0 < digitCount num spec ∧ digitCount num spec ≤ 64 := by
  have hb := h.one_lt
  have hlen : digitCount num spec = (baseDigits spec.base.toNat (magnitude num spec)).length :=
    List.length_map _
  rw [hlen]
  refine ⟨baseDigits_length_pos hb _, ?_⟩
  have hlt : magnitude num spec < 2 ^ 64 := by
    rw [← signOf_magnitude]
    exact UInt64.toNat_lt _
  rw [baseDigits]
  split
  · decide
  · rw [Nat.digits_length_le_iff hb]
    exact hlt.trans_le (Nat.pow_le_pow_left hb 64)

/-- `number` puts one text, with the padding that the loops make of the budget. -/
theorem puts_conversion (h : Conversion num spec) :
    Puts (number num spec) () (assemble spec
      (paddings spec (Int16.ofInt (budget num spec (digitCount num spec)))).1
      (paddings spec (Int16.ofInt (budget num spec (digitCount num spec)))).2.1
      (paddings spec (Int16.ofInt (budget num spec (digitCount num spec)))).2.2
      (precisionOf spec (digitCount num spec) - digitCount num spec)
      (signOf num spec).1 (prefixText spec) (digitChars num spec).reverse) := by
  obtain ⟨hpos, hle⟩ := @digitCount_bounds num spec h.based
  have hmag := signOf_magnitude num spec
  have htmp : numberDigits (signOf num spec).2.1 spec.base (spec.flags &&& small) =
      some (digitChars num spec) := by
    rw [numberDigits_eq h.based (by rw [hmag]; exact h.decimal), hmag]
    rfl
  have hputs := puts_number htmp hpos (hle.trans_lt (by decide))
  have hwidth := widthLeft_eq num spec hpos (hle.trans_lt (by decide))
  have hpfx := congrArg Prod.fst (prefixOf_eq spec
    (spec.fieldWidth.toInt - (signOf num spec).1.length))
  rw [← signOf_width] at hpfx
  rw [hpfx, ← digitCount, hwidth] at hputs
  exact hputs

/-- The padding that the rendering asks for. -/
def padsOf (spec : PrintfSpec) (pad : ℕ) : ℕ × ℕ × ℕ :=
  if Has spec left then (0, 0, pad) else if Has spec zeropad then (0, pad, 0) else (pad, 0, 0)

/-- All of the padding. -/
theorem padsOf_total (spec : PrintfSpec) (pad : ℕ) :
    (padsOf spec pad).1 + (padsOf spec pad).2.1 + (padsOf spec pad).2.2 = pad := by
  rw [padsOf]
  split_ifs <;> simp only [Nat.zero_add, Nat.add_zero]

/-- The length of a text from its parts. -/
theorem assemble_length (spec : PrintfSpec) (before between behind zeros : ℕ)
    (sgn pfx ds : List UInt8) :
    (assemble spec before between behind zeros sgn pfx ds).length =
      before + between + behind + sgn.length + pfx.length + (zeros + ds.length) := by
  simp only [assemble, List.length_append, List.length_replicate]
  omega

/-- The zeros of the precision. -/
theorem digitText_eq (num : UInt64) (spec : PrintfSpec) : digitText num spec =
    List.replicate (precisionOf spec (digitCount num spec) - digitCount num spec) (code '0') ++
      (digitChars num spec).reverse := by
  have hzeros : precisionOf spec (digitCount num spec) - digitCount num spec =
      spec.precision.toInt.toNat - (digitChars num spec).length := by
    rw [precisionOf, digitCount]
    omega
  rw [hzeros]
  rfl

/-- The rendering, put together as `number` does. -/
theorem rendering_eq (num : UInt64) (spec : PrintfSpec) {pad : ℕ}
    (hpad : pad = spec.fieldWidth.toInt.toNat - ((signText num spec).length +
      (prefixText spec).length + precisionOf spec (digitCount num spec))) :
    rendering num spec = assemble spec (padsOf spec pad).1 (padsOf spec pad).2.1
      (padsOf spec pad).2.2 (precisionOf spec (digitCount num spec) - digitCount num spec)
      (signText num spec) (prefixText spec) (digitChars num spec).reverse := by
  have hge : digitCount num spec ≤ precisionOf spec (digitCount num spec) := le_max_right _ _
  have hcount : (digitChars num spec).length = digitCount num spec := rfl
  have hlen : (signText num spec ++ (prefixText spec ++ digitText num spec)).length =
      (signText num spec).length + (prefixText spec).length +
        precisionOf spec (digitCount num spec) := by
    rw [digitText_eq]
    simp only [List.length_append, List.length_replicate, List.length_reverse, hcount]
    omega
  have hz : ¬ Has spec left → Has spec zeropad →
      (if spec.flags &&& zeropad ≠ 0 then code '0' else code ' ') = code '0' := fun _ h => if_pos h
  rw [rendering, hlen, ← hpad, digitText_eq, padsOf]
  by_cases hl : Has spec left
  · simp only [if_pos hl, assemble, List.replicate_zero, List.nil_append, List.append_assoc]
  · by_cases hzero : Has spec zeropad
    · simp only [if_neg hl, if_pos hzero, assemble, List.replicate_zero, List.nil_append,
        List.append_nil, hz hl hzero]
    · simp only [if_neg hl, if_neg hzero, assemble, List.replicate_zero, List.nil_append,
        List.append_nil]

/-- The bounds of the budget. -/
theorem budget_bounds (h : Conversion num spec) :
    -2 ^ 15 - 3 ≤ budget num spec (digitCount num spec) ∧
      budget num spec (digitCount num spec) < 2 ^ 15 := by
  obtain ⟨hpos, hle⟩ := @digitCount_bounds num spec h.based
  have hw := h.width
  have hwhigh := spec.fieldWidth.toInt_lt
  have hphigh := spec.precision.toInt_lt
  have hsign : (signOf num spec).1.length ≤ 1 := by
    rcases signOf_cases num spec with ⟨-, he⟩ | ⟨-, -, -, he⟩ | ⟨-, -, he⟩ <;> rw [he] <;> simp
  have hpfx : (prefixText spec).length ≤ 2 := by
    rw [prefixText]
    split_ifs <;> simp
  rw [budget, precisionOf]
  omega

/-- The rendering is not put where a loop wraps. -/
theorem wrap_not_rendering (h : Conversion num spec)
    (hlow : budget num spec (digitCount num spec) - loops spec < -2 ^ 15)
    (hnone : budget num spec (digitCount num spec) ≤ 0)
    (hle : (signText num spec).length ≤ (signOf num spec).1.length + 1) :
    ¬ Puts (number num spec) () (rendering num spec) := by
  intro hp
  have heq := congrArg List.length ((puts_conversion h).unique hp 0)
  have hwrap := @paddings_of_wrap spec _ hlow (budget_bounds h).1
  have hpads := padsOf_total spec (spec.fieldWidth.toInt.toNat - ((signText num spec).length +
      (prefixText spec).length + precisionOf spec (digitCount num spec)))
  rw [rendering_eq num spec rfl, assemble_length, assemble_length] at heq
  rw [budget] at hnone
  omega

/-- With the sign that `number` puts, the rendering is put unless a loop wraps. -/
theorem same_sign_iff (h : Conversion num spec) (hs : signText num spec = (signOf num spec).1) :
    Puts (number num spec) () (rendering num spec) ↔
      1 ≤ budget num spec (digitCount num spec) ∨
        -2 ^ 15 ≤ budget num spec (digitCount num spec) - loops spec := by
  have hputs := puts_conversion h
  have hlow := h.width
  obtain ⟨hpos, -⟩ := @digitCount_bounds num spec h.based
  have hge : digitCount num spec ≤ precisionOf spec (digitCount num spec) := le_max_right _ _
  have hpad : (budget num spec (digitCount num spec)).toNat = spec.fieldWidth.toInt.toNat -
      ((signText num spec).length + (prefixText spec).length +
        precisionOf spec (digitCount num spec)) := by
    rw [budget, hs]
    omega
  constructor
  · intro hp
    by_contra hno
    obtain ⟨hnone, hwrap⟩ := not_or.mp hno
    exact wrap_not_rendering h (not_le.mp hwrap) (by omega) (by rw [hs]; omega) hp
  · intro hroom
    have hsame : paddings spec (Int16.ofInt (budget num spec (digitCount num spec))) =
        padsOf spec (budget num spec (digitCount num spec)).toNat := by
      by_cases hone : 1 ≤ budget num spec (digitCount num spec)
      · exact paddings_of_pos hone (budget_bounds h).2
      · have hzero : (budget num spec (digitCount num spec)).toNat = 0 := by omega
        rw [paddings_of_nonpos (by omega) (hroom.resolve_left hone), hzero, padsOf]
        split_ifs <;> rfl
    rw [rendering_eq num spec hpad, hs, ← hsame]
    exact hputs

/-- The characters that are neither a plus nor a space. -/
def Plain (c : UInt8) : Prop := c ≠ code '+' ∧ c ≠ code ' '

/-- The digits are plain. -/
theorem plain_digit (h : Based spec) {c : UInt8} (hc : c ∈ digitChars num spec) : Plain c := by
  have hall : ∀ d < 16, Plain (digitChar false d) ∧ Plain (digitChar true d) := by
    simp only [Plain]
    decide
  obtain ⟨d, hd, rfl⟩ := List.mem_map.mp hc
  have hbase : spec.base.toNat ≤ 16 := by
    rcases h with h | h | h <;> rw [h] <;> decide
  have hlt : d < 16 := (baseDigits_lt h.one_lt hd).trans_le hbase
  cases decide (Has spec small) with
  | false => exact (hall d hlt).1
  | true => exact (hall d hlt).2

/-- The prefix is plain. -/
theorem plain_prefixOf {c : UInt8} (hc : c ∈ prefixText spec) : Plain c := by
  have hzero : Plain (code '0') := ⟨by decide, by decide⟩
  have hx : Plain (if Has spec small then code 'x' else code 'X') := by
    split
    · exact ⟨by decide, by decide⟩
    · exact ⟨by decide, by decide⟩
  rw [prefixText] at hc
  by_cases hn : ¬ Has spec special ∨ spec.base = 10
  · rw [if_pos hn] at hc
    exact absurd hc List.not_mem_nil
  · rw [if_neg hn] at hc
    by_cases h16 : spec.base = 16
    · rw [if_pos h16] at hc
      rcases List.mem_cons.mp hc with rfl | hc
      · exact hzero
      · rw [List.mem_singleton.mp hc]
        exact hx
    · rw [if_neg h16] at hc
      rw [List.mem_singleton.mp hc]
      exact hzero

/-- The zeros and the digits are plain. -/
theorem plain_digitText (h : Based spec) {c : UInt8} (hc : c ∈ digitText num spec) : Plain c := by
  rw [digitText_eq, List.mem_append] at hc
  rcases hc with hc | hc
  · rw [List.eq_of_mem_replicate hc]
    exact ⟨by decide, by decide⟩
  · exact plain_digit h (List.mem_reverse.mp hc)

/-- `number` never puts a plus. -/
theorem plus_not_rendering (h : Conversion num spec) (hs : signText num spec = [code '+']) :
    ¬ Puts (number num spec) () (rendering num spec) := by
  intro hp
  have heq := (puts_conversion h).unique hp 0
  have hmem : code '+' ∈ rendering num spec := by
    rw [rendering_eq num spec rfl, hs]
    simp only [assemble, List.mem_append, List.mem_singleton, true_or, or_true]
  have hfill : ∀ (n : ℕ) (c : UInt8), c ≠ code '+' → code '+' ∉ List.replicate n c :=
    fun n c hc hm => hc (List.eq_of_mem_replicate hm).symm
  have hpad : (if spec.flags &&& zeropad ≠ 0 then code '0' else code ' ') ≠ code '+' := by
    split <;> decide
  have hsign : code '+' ∉ (signOf num spec).1 := by
    have hminus : code '+' ∉ [code '-'] := by decide
    have hblank : code '+' ∉ [code ' '] := by decide
    rcases signOf_cases num spec with ⟨-, he⟩ | ⟨-, -, -, he⟩ | ⟨-, -, he⟩
    · rw [he]
      exact hminus
    · rw [he]
      exact hblank
    · rw [he]
      exact List.not_mem_nil
  rw [← heq] at hmem
  simp only [assemble, List.mem_append] at hmem
  rcases hmem with hm | hm | hm | hm | hm | hm | hm
  · exact hfill _ _ (by decide) hm
  · exact hsign hm
  · exact (plain_prefixOf hm).1 rfl
  · exact hfill _ _ hpad hm
  · exact hfill _ _ (by decide) hm
  · exact (plain_digit h.based (List.mem_reverse.mp hm)).1 rfl
  · exact hfill _ _ (by decide) hm

/-- Prefix, zeros and digits are not empty, and no space is among them. -/
theorem front_plain (h : Conversion num spec) (n : ℕ) (xs : List UInt8) :
    ∃ c cs, Plain c ∧ prefixText spec ++ (List.replicate n (code '0') ++
      (List.replicate (precisionOf spec (digitCount num spec) - digitCount num spec) (code '0') ++
        ((digitChars num spec).reverse ++ xs))) = c :: cs := by
  obtain ⟨hpos, -⟩ := @digitCount_bounds num spec h.based
  have hsplit : prefixText spec ++ (List.replicate n (code '0') ++
      (List.replicate (precisionOf spec (digitCount num spec) - digitCount num spec) (code '0') ++
        ((digitChars num spec).reverse ++ xs))) =
      (prefixText spec ++ (List.replicate n (code '0') ++ digitText num spec)) ++ xs := by
    rw [digitText_eq]
    simp only [List.append_assoc]
  have hplain : ∀ c ∈ prefixText spec ++ (List.replicate n (code '0') ++ digitText num spec),
      Plain c := by
    intro c hc
    rw [List.mem_append, List.mem_append] at hc
    rcases hc with hc | hc | hc
    · exact plain_prefixOf hc
    · rw [List.eq_of_mem_replicate hc]
      exact ⟨by decide, by decide⟩
    · exact plain_digitText h.based hc
  rw [hsplit]
  cases hl : prefixText spec ++ (List.replicate n (code '0') ++ digitText num spec) with
  | nil =>
    have hlen := congrArg List.length hl
    rw [digitText_eq] at hlen
    simp only [List.length_append, List.length_replicate, List.length_reverse,
      List.length_nil] at hlen
    rw [digitCount] at hpos
    omega
  | cons c cs => exact ⟨c, cs ++ xs, hplain c (by rw [hl]; exact List.mem_cons_self ..), rfl⟩

/-- Where a space is asked for and none is put, the rendering is put only with spaces in front. -/
theorem space_iff (h : Conversion num spec) (hs : signText num spec = [code ' '])
    (hnone : (signOf num spec).1 = []) :
    Puts (number num spec) () (rendering num spec) ↔
      ¬ Has spec left ∧ ¬ Has spec zeropad ∧ 1 ≤ budget num spec (digitCount num spec) := by
  have hputs := puts_conversion h
  have hlow := h.width
  rw [hnone] at hputs
  have hbudget : budget num spec (digitCount num spec) = spec.fieldWidth.toInt -
      (prefixText spec).length - precisionOf spec (digitCount num spec) := by
    rw [budget, hnone, List.length_nil, Nat.cast_zero, Int.sub_zero]
  have hsign : (signText num spec).length = 1 := by rw [hs]; rfl
  constructor
  · intro hp
    have heq := hputs.unique hp 0
    rw [rendering_eq num spec rfl, hs] at heq
    have hleft : ¬ Has spec left := fun hl => by
      obtain ⟨c, cs, hc, hfront⟩ := front_plain h 0 (List.replicate (rounds
        (Int16.ofInt (budget num spec (digitCount num spec)))) (code ' '))
      rw [paddings_left hl, padsOf, if_pos hl] at heq
      simp only [assemble, List.replicate_zero, List.nil_append] at heq hfront
      rw [hfront] at heq
      exact hc.2 (List.cons.inj heq).1
    have hzero : ¬ Has spec zeropad := fun hz => by
      have hchar : (if spec.flags &&& zeropad ≠ 0 then code '0' else code ' ') = code '0' :=
        if_pos hz
      obtain ⟨c, cs, hc, hfront⟩ := front_plain h (rounds
        (Int16.ofInt (budget num spec (digitCount num spec)))) (List.replicate (rounds (rest
          (Int16.ofInt (budget num spec (digitCount num spec))))) (code ' '))
      rw [paddings_zeropad hleft hz, padsOf, if_neg hleft, if_pos hz] at heq
      simp only [assemble, hchar, List.replicate_zero, List.nil_append] at heq
      rw [hfront] at heq
      exact hc.2 (List.cons.inj heq).1
    refine ⟨hleft, hzero, ?_⟩
    by_contra hno
    by_cases hwrap : budget num spec (digitCount num spec) - loops spec < -2 ^ 15
    · exact wrap_not_rendering h hwrap (by omega) (by rw [hsign, hnone]; rfl) hp
    · have hlen := congrArg List.length heq
      rw [paddings_of_nonpos (by omega) (not_lt.mp hwrap), assemble_length,
        assemble_length] at hlen
      simp only [List.length_nil, List.length_cons] at hlen
      omega
  · rintro ⟨hl, hz, hone⟩
    have hpad : (budget num spec (digitCount num spec)).toNat - 1 = spec.fieldWidth.toInt.toNat -
        ((signText num spec).length + (prefixText spec).length +
          precisionOf spec (digitCount num spec)) := by
      rw [hbudget, hsign]
      omega
    have hcount : (budget num spec (digitCount num spec)).toNat =
        (budget num spec (digitCount num spec)).toNat - 1 + 1 := by omega
    rw [paddings_of_pos hone (budget_bounds h).2, if_neg hl, if_neg hz] at hputs
    rw [rendering_eq num spec hpad, hs, padsOf, if_neg hl, if_neg hz]
    dsimp only at hputs ⊢
    rw [assemble, hcount, List.replicate_succ', List.append_assoc] at hputs
    exact hputs

/-- `number` puts the rendering of the value exactly under the condition. -/
theorem rendered_iff (h : Conversion num spec) :
    Puts (number num spec) () (rendering num spec) ↔ Rendered num spec := by
  rcases signOf_cases num spec with ⟨hn, he⟩ | ⟨hn, hsign, hplus, he⟩ | ⟨hn, hno, he⟩
  · have hs : signText num spec = (signOf num spec).1 := by
      rw [he, signText, if_pos hn]
    rw [same_sign_iff h hs]
    exact ⟨fun hroom => ⟨fun _ hpos => absurd hn hpos, fun _ hpos => absurd hn hpos, hroom⟩,
      fun hr => hr.room⟩
  · have hs : signText num spec = [code '+'] := by
      rw [signText, if_neg hn, if_pos ⟨hsign, hplus⟩]
    exact ⟨fun hp => absurd hp (plus_not_rendering h hs), fun hr => absurd hplus (hr.plus hsign hn)⟩
  · have hnone : (signOf num spec).1 = [] := by rw [he]
    by_cases hspace : Has spec sign ∧ Has spec space
    · have hs : signText num spec = [code ' '] := by
        rw [signText, if_neg hn, if_neg hno, if_pos hspace]
      rw [space_iff h hs hnone]
      exact ⟨fun hroom => ⟨fun hsign _ hplus => hno ⟨hsign, hplus⟩, fun _ _ _ => hroom,
        Or.inl hroom.2.2⟩, fun hr => hr.space hspace.1 hn hspace.2⟩
    · have hs : signText num spec = (signOf num spec).1 := by
        rw [hnone, signText, if_neg hn, if_neg hno, if_neg hspace]
      rw [same_sign_iff h hs]
      exact ⟨fun hroom => ⟨fun hsign _ hplus => hno ⟨hsign, hplus⟩,
        fun hsign _ hsp => absurd ⟨hsign, hsp⟩ hspace, hroom⟩, fun hr => hr.room⟩

/-- A spec for hexadecimal digits in lower case, with prefix and zeros up to the width 6. -/
def hexSpec : PrintfSpec := ⟨.uint, special ||| small ||| zeropad, 16, 0, 6, -1⟩

/-- 42 is printed as `0x002a`. -/
theorem rendered_iff_hex : rendering 42 hexSpec = "0x002a".toList.map code ∧
    Puts (number 42 hexSpec) () (rendering 42 hexSpec) := by
  refine ⟨by decide, (rendered_iff ⟨Or.inr (Or.inr rfl), by decide, by decide⟩).mpr
    ⟨by decide, by decide, by decide⟩⟩

/-- A spec for signed decimal digits with the plus flag. -/
def plusSpec : PrintfSpec := ⟨.int, sign ||| plus, 10, 0, -1, -1⟩

/-- 42 is to be printed as `+42`, but is printed with a space in place of the plus. -/
theorem plus_counterexample : rendering 42 plusSpec = "+42".toList.map code ∧
    Puts (number 42 plusSpec) () (" 42".toList.map code) ∧
      ¬ Puts (number 42 plusSpec) () (rendering 42 plusSpec) := by
  have hconv : Conversion 42 plusSpec := ⟨Or.inr (Or.inl rfl), by decide, by decide⟩
  refine ⟨by decide, ?_, plus_not_rendering hconv (by decide)⟩
  exact puts_conversion hconv

end BiscuitOS.VsprintfNumber
