import BiscuitOS.VsprintfModel

/-!
# Decimal digits

`put_dec` and its two helpers in `lib/vsprintf.c`. A number of five digits is
divided by ten through multiplications and shifts of its nibbles. A larger one
is to be cut into groups of five digits, but `do_div` is a plain quotient here,
which does not change the number.
-/

namespace BiscuitOS.VsprintfDecimal

open VsprintfModel

/-- `put_dec_full`. Its third digit is assigned, not computed. -/
def putDecFull (q : UInt32) : List UInt8 :=
  let d1 := (q >>> 4) &&& 0xf
  let d2 := (q >>> 8) &&& 0xf
  let d3 := q >>> 12
  let d0 := 6 * (d3 + d2 + d1) + (q &&& 0xf)
  let q := (d0 * 0xcd) >>> 11
  let d0 := d0 - 10 * q
  let d1 := q + 9 * d3 + 5 * d2 + d1
  let q := (d1 * 0xcd) >>> 11
  let d1 := d1 - 10 * q
  let d2 := q + 2 * d2
  let q := (d2 * 0xd) >>> 7
  let d3 := q + 4 * d3
  let q := (d3 * 0xcd) >>> 11
  let d3 := d3 - 10 * q
  [(d0 + 48).toUInt8, (d1 + 48).toUInt8, code '0', (d3 + 48).toUInt8, (q + 48).toUInt8]

/-- `do_div`. -/
def doDiv (a b : UInt64) : UInt64 := a / b

/-- The loop of `put_dec`, with fuel. -/
def putDecFrom (num : UInt64) : ℕ → Option (List UInt8)
  | 0 => none
  | fuel + 1 =>
    if num < 100000 then some (putDecTrunc num.toUInt32)
    else (putDecFrom num fuel).map (putDecFull (doDiv num 100000).toUInt32 ++ ·)

/-- The decimal digits of a number, least significant first; zero has one digit. -/
def decimal (n : ℕ) : List ℕ := if n = 0 then [0] else Nat.digits 10 n

/-- The five lowest decimal digits. -/
def fiveDigits (n : ℕ) : List ℕ :=
  [n % 10, n / 10 % 10, n / 100 % 10, n / 1000 % 10, n / 10000 % 10]

/-- The characters of digits. -/
def ascii (ds : List ℕ) : List UInt8 := ds.map fun d => UInt8.ofNat (d + 48)

/-- The number that digits stand for, least significant first. -/
def readBack (bytes : List UInt8) : ℕ := Nat.ofDigits 10 (bytes.map fun c => c.toNat - 48)

variable {q : UInt32} {n : ℕ}

/-- A remainder by ten, from the quotient. -/
theorem rest_of_tenth {x t : UInt32} (ht : t.toNat = x.toNat / 10) :
    (x - 10 * t).toNat = x.toNat % 10 := by
  have hx := x.toNat_lt
  have hten : (10 * t).toNat = 10 * (x.toNat / 10) := by
    rw [UInt32.toNat_mul, ht]
    exact Nat.mod_eq_of_lt (show 10 * (x.toNat / 10) < 2 ^ 32 by omega)
  rw [UInt32.toNat_sub_of_le _ _ (by rw [UInt32.le_iff_toNat_le, hten]; omega), hten]
  omega

/-- Multiplying by 205 and shifting by 11 divides by ten up to 339. -/
theorem tenth_wide {x : UInt32} (h : x.toNat ≤ 339) :
    ((x * 0xcd) >>> 11).toNat = x.toNat / 10 := by
  have hmul : (x * 0xcd).toNat = x.toNat * 205 := by
    rw [UInt32.toNat_mul]
    exact Nat.mod_eq_of_lt (show x.toNat * 205 < 2 ^ 32 by omega)
  have hshift : ((x * 0xcd) >>> 11).toNat = (x * 0xcd).toNat >>> 11 := UInt32.toNat_shiftRight _ _
  rw [hshift, hmul, Nat.shiftRight_eq_div_pow _ 11]
  omega

/-- Multiplying by 13 and shifting by 7 divides by ten up to 68. -/
theorem tenth_narrow {x : UInt32} (h : x.toNat ≤ 68) :
    ((x * 0xd) >>> 7).toNat = x.toNat / 10 := by
  have hmul : (x * 0xd).toNat = x.toNat * 13 := by
    rw [UInt32.toNat_mul]
    exact Nat.mod_eq_of_lt (show x.toNat * 13 < 2 ^ 32 by omega)
  have hshift : ((x * 0xd) >>> 7).toNat = (x * 0xd).toNat >>> 7 := UInt32.toNat_shiftRight _ _
  rw [hshift, hmul, Nat.shiftRight_eq_div_pow _ 7]
  omega

/-- A digit becomes its character. -/
theorem char_of_digit {x : UInt32} {d : ℕ} (hx : x.toNat = d) (hd : d < 10) :
    (x + 48).toUInt8 = UInt8.ofNat (d + 48) := by
  have hsum : (x + 48).toNat = d + 48 := by
    rw [UInt32.toNat_add, hx]
    exact Nat.mod_eq_of_lt (show d + 48 < 2 ^ 32 by omega)
  rw [← hsum]
  rfl

/-- `d1` at first. -/
def nib1 (q : UInt32) : UInt32 := (q >>> 4) &&& 0xf

/-- `d2` at first. -/
def nib2 (q : UInt32) : UInt32 := (q >>> 8) &&& 0xf

/-- `d3` at first. -/
def nib3 (q : UInt32) : UInt32 := q >>> 12

/-- The nibbles of a number. -/
theorem nibbles (q : UInt32) : (q &&& 0xf).toNat = q.toNat % 16 ∧
    (nib1 q).toNat = q.toNat / 16 % 16 ∧ (nib2 q).toNat = q.toNat / 256 % 16 ∧
      (nib3 q).toNat = q.toNat / 4096 := by
  have hmask : ∀ x : UInt32, (x &&& 0xf).toNat = x.toNat % 16 := fun x => by
    rw [UInt32.toNat_and]
    exact Nat.and_two_pow_sub_one_eq_mod x.toNat 4
  have hshift : ∀ k : UInt32, (q >>> k).toNat = q.toNat >>> (k.toNat % 32) :=
    fun k => UInt32.toNat_shiftRight q k
  refine ⟨hmask q, ?_, ?_, ?_⟩
  · rw [nib1, hmask, hshift 4]
    exact congrArg (· % 16) (Nat.shiftRight_eq_div_pow q.toNat 4)
  · rw [nib2, hmask, hshift 8]
    exact congrArg (· % 16) (Nat.shiftRight_eq_div_pow q.toNat 8)
  · rw [nib3, hshift 12]
    exact Nat.shiftRight_eq_div_pow q.toNat 12

/-- `d0` before its division. -/
def sum0 (q : UInt32) : UInt32 := 6 * (nib3 q + nib2 q + nib1 q) + (q &&& 0xf)

/-- Its tenth. -/
def tenth0 (q : UInt32) : UInt32 := (sum0 q * 0xcd) >>> 11

/-- `d1` before its division. -/
def sum1 (q : UInt32) : UInt32 := tenth0 q + 9 * nib3 q + 5 * nib2 q + nib1 q

/-- Its tenth. -/
def tenth1 (q : UInt32) : UInt32 := (sum1 q * 0xcd) >>> 11

/-- `d2` before its division. -/
def sum2 (q : UInt32) : UInt32 := tenth1 q + 2 * nib2 q

/-- Its tenth. -/
def tenth2 (q : UInt32) : UInt32 := (sum2 q * 0xd) >>> 7

/-- `d3` before its division. -/
def sum3 (q : UInt32) : UInt32 := tenth2 q + 4 * nib3 q

/-- Its tenth, the last digit. -/
def tenth3 (q : UInt32) : UInt32 := (sum3 q * 0xcd) >>> 11

/-- Both helpers compute the same digits; the truncating one stops at the first zero sum. -/
theorem helpers_eq (q : UInt32) :
    putDecFull q = [(sum0 q - 10 * tenth0 q + 48).toUInt8, (sum1 q - 10 * tenth1 q + 48).toUInt8,
      code '0', (sum3 q - 10 * tenth3 q + 48).toUInt8, (tenth3 q + 48).toUInt8] ∧
    putDecTrunc q = (sum0 q - 10 * tenth0 q + 48).toUInt8 :: if sum1 q = 0 then [] else
      (sum1 q - 10 * tenth1 q + 48).toUInt8 :: if sum2 q = 0 ∧ nib3 q = 0 then [] else
        (sum2 q - 10 * tenth2 q + 48).toUInt8 :: if sum3 q = 0 then [] else
          (sum3 q - 10 * tenth3 q + 48).toUInt8 ::
            if tenth3 q = 0 then [] else [(tenth3 q + 48).toUInt8] :=
  ⟨rfl, rfl⟩

/-- A sum of small terms does not wrap. -/
theorem toNat_add_small {x y : UInt32} (h : x.toNat + y.toNat < 2 ^ 32) :
    (x + y).toNat = x.toNat + y.toNat := by
  rw [UInt32.toNat_add]
  exact Nat.mod_eq_of_lt h

/-- A small multiple does not wrap. -/
theorem toNat_mul_small {c x : UInt32} (h : c.toNat * x.toNat < 2 ^ 32) :
    (c * x).toNat = c.toNat * x.toNat := by
  rw [UInt32.toNat_mul]
  exact Nat.mod_eq_of_lt h

/-- The sums as numbers: each is what is left of the number in the nibbles above, so that its
remainder by ten is the next digit. -/
structure Sums (q : UInt32) : Prop where
  first : (sum0 q).toNat % 10 = q.toNat % 10
  tenth_first : (tenth0 q).toNat = (sum0 q).toNat / 10
  second : q.toNat / 10 = (sum1 q).toNat + 20 * (nib2 q).toNat + 400 * (nib3 q).toNat
  second_least : 9 * (nib3 q).toNat + 5 * (nib2 q).toNat ≤ (sum1 q).toNat
  tenth_second : (tenth1 q).toNat = (sum1 q).toNat / 10
  third : q.toNat / 100 = (sum2 q).toNat + 40 * (nib3 q).toNat
  tenth_third : (tenth2 q).toNat = (sum2 q).toNat / 10
  fourth : q.toNat / 1000 = (sum3 q).toNat
  tenth_fourth : (tenth3 q).toNat = (sum3 q).toNat / 10

/-- The weights of the nibbles in base ten, digit by digit. -/
theorem weights {a b c d s0 s1 s2 s3 n : ℕ} (hn : n = a + 16 * b + 256 * c + 4096 * d)
    (h0 : s0 = 6 * (d + c + b) + a) (h1 : s1 = s0 / 10 + 9 * d + 5 * c + b)
    (h2 : s2 = s1 / 10 + 2 * c) (h3 : s3 = s2 / 10 + 4 * d) :
    s0 % 10 = n % 10 ∧ n / 10 = s1 + 20 * c + 400 * d ∧ n / 100 = s2 + 40 * d ∧ n / 1000 = s3 := by
  have hfirst : n = s0 + 10 * (b + 25 * c + 409 * d) := by omega
  have hten : n / 10 = s1 + 20 * c + 400 * d := by
    rw [hfirst, Nat.add_mul_div_left _ _ (by decide), h1]
    ring
  have hhundred : n / 100 = s2 + 40 * d := by
    have hdiv : n / 100 = n / 10 / 10 := (Nat.div_div_eq_div_mul n 10 10).symm
    have hsplit : s1 + 20 * c + 400 * d = s1 + 10 * (2 * c + 40 * d) := by ring
    rw [hdiv, hten, hsplit, Nat.add_mul_div_left _ _ (by decide), h2]
    ring
  have hthousand : n / 1000 = s3 := by
    have hdiv : n / 1000 = n / 100 / 10 := (Nat.div_div_eq_div_mul n 100 10).symm
    have hsplit : s2 + 40 * d = s2 + 10 * (4 * d) := by ring
    rw [hdiv, hhundred, hsplit, Nat.add_mul_div_left _ _ (by decide), h3]
  refine ⟨?_, hten, hhundred, hthousand⟩
  rw [hfirst, Nat.add_mul_mod_self_left]

/-- The product with a small constant, in the range of the sums. -/
theorem scaled {k x : UInt32} {c : ℕ} (hk : k.toNat = c) (hx : c * x.toNat < 100000) :
    (k * x).toNat = c * x.toNat := by
  rw [toNat_mul_small, hk]
  rw [hk]
  exact hx.trans (by decide)

/-- A sum in the range of the sums. -/
theorem added {x y : UInt32} {a b : ℕ} (hx : x.toNat = a) (hy : y.toNat = b) (h : a + b < 100000) :
    (x + y).toNat = a + b := by
  rw [toNat_add_small, hx, hy]
  rw [hx, hy]
  exact h.trans (by decide)

/-- The divisions by ten are exact on the sums of a number of at most five digits. -/
theorem sums (h : q.toNat < 100000) : Sums q := by
  obtain ⟨ha, hb, hc, hd⟩ := nibbles q
  have hn : q.toNat = q.toNat % 16 + 16 * (nib1 q).toNat + 256 * (nib2 q).toNat +
      4096 * (nib3 q).toNat := by
    rw [hb, hc, hd]
    omega
  have hlow : q.toNat % 16 < 16 := Nat.mod_lt _ (by decide)
  have hb16 : (nib1 q).toNat < 16 := hb ▸ Nat.mod_lt _ (by decide)
  have hc16 : (nib2 q).toNat < 16 := hc ▸ Nat.mod_lt _ (by decide)
  have hd25 : (nib3 q).toNat < 25 := by
    rw [hd]
    omega
  clear hb hc hd h
  generalize q.toNat % 16 = a at ha hn hlow
  have hs0 : (sum0 q).toNat = 6 * ((nib3 q).toNat + (nib2 q).toNat + (nib1 q).toNat) + a := by
    have hnib := added (added (x := nib3 q) (y := nib2 q) rfl rfl (by omega)) (y := nib1 q) rfl
      (by omega)
    have hsix : (6 * (nib3 q + nib2 q + nib1 q)).toNat =
        6 * ((nib3 q).toNat + (nib2 q).toNat + (nib1 q).toNat) := by
      rw [scaled (c := 6) rfl (by rw [hnib]; omega), hnib]
    exact added hsix ha (by omega)
  have ht0 : (tenth0 q).toNat = (sum0 q).toNat / 10 := tenth_wide (by omega)
  have hs1 : (sum1 q).toNat = (sum0 q).toNat / 10 + 9 * (nib3 q).toNat + 5 * (nib2 q).toNat +
      (nib1 q).toNat :=
    added (added (added ht0 (scaled rfl (by omega)) (by omega)) (scaled rfl (by omega)) (by omega))
      rfl (by omega)
  have ht1 : (tenth1 q).toNat = (sum1 q).toNat / 10 := tenth_wide (by omega)
  have hs2 : (sum2 q).toNat = (sum1 q).toNat / 10 + 2 * (nib2 q).toNat :=
    added ht1 (scaled rfl (by omega)) (by omega)
  have ht2 : (tenth2 q).toNat = (sum2 q).toNat / 10 := tenth_narrow (by omega)
  have hs3 : (sum3 q).toNat = (sum2 q).toNat / 10 + 4 * (nib3 q).toNat :=
    added ht2 (scaled rfl (by omega)) (by omega)
  have ht3 : (tenth3 q).toNat = (sum3 q).toNat / 10 := tenth_wide (by omega)
  obtain ⟨hfirst, hten, hhundred, hthousand⟩ := weights hn hs0 hs1 hs2 hs3
  exact ⟨hfirst, ht0, hten, by omega, ht1, hhundred, ht2, hthousand, ht3⟩

/-- The characters of the digits. -/
structure Chars (q : UInt32) : Prop where
  first : (sum0 q - 10 * tenth0 q + 48).toUInt8 = UInt8.ofNat (q.toNat % 10 + 48)
  second : (sum1 q - 10 * tenth1 q + 48).toUInt8 = UInt8.ofNat (q.toNat / 10 % 10 + 48)
  third : (sum2 q - 10 * tenth2 q + 48).toUInt8 = UInt8.ofNat (q.toNat / 100 % 10 + 48)
  fourth : (sum3 q - 10 * tenth3 q + 48).toUInt8 = UInt8.ofNat (q.toNat / 1000 % 10 + 48)
  fifth : (tenth3 q + 48).toUInt8 = UInt8.ofNat (q.toNat / 10000 + 48)

/-- The digits are right for every number of at most five digits. -/
theorem chars (h : q.toNat < 100000) : Chars q := by
  have hs := sums h
  have hmod : ∀ n : ℕ, n % 10 < 10 := fun n => Nat.mod_lt n (by decide)
  have hsecond : (sum1 q).toNat % 10 = q.toNat / 10 % 10 := by
    rw [hs.second]
    omega
  have hthird : (sum2 q).toNat % 10 = q.toNat / 100 % 10 := by
    rw [hs.third]
    omega
  refine ⟨?_, ?_, ?_, ?_, ?_⟩
  · exact char_of_digit ((rest_of_tenth hs.tenth_first).trans hs.first) (hmod _)
  · exact char_of_digit ((rest_of_tenth hs.tenth_second).trans hsecond) (hmod _)
  · exact char_of_digit ((rest_of_tenth hs.tenth_third).trans hthird) (hmod _)
  · rw [hs.fourth]
    exact char_of_digit (rest_of_tenth hs.tenth_fourth) (hmod _)
  · have hlast : q.toNat / 10000 = (sum3 q).toNat / 10 := by
      rw [← hs.fourth]
      exact (Nat.div_div_eq_div_mul q.toNat 1000 10).symm
    rw [hlast]
    exact char_of_digit hs.tenth_fourth (by omega)

/-- Characters of different digits differ. -/
theorem char_inj {d e : ℕ} (hd : d < 10) (he : e < 10)
    (h : UInt8.ofNat (d + 48) = UInt8.ofNat (e + 48)) : d = e := by
  have hval := congrArg UInt8.toNat h
  rw [UInt8.toNat_ofNat', UInt8.toNat_ofNat', Nat.mod_eq_of_lt (by omega),
    Nat.mod_eq_of_lt (by omega)] at hval
  omega

/-- `put_dec_full` stores the five digits exactly when the third one is zero. -/
theorem putDecFull_iff (h : q.toNat < 100000) :
    putDecFull q = ascii (fiveDigits q.toNat) ↔ q.toNat / 100 % 10 = 0 := by
  have hc := chars h
  have hlast : q.toNat / 10000 % 10 = q.toNat / 10000 := Nat.mod_eq_of_lt (by omega)
  have hzero : code '0' = UInt8.ofNat (0 + 48) := rfl
  rw [(helpers_eq q).1, hc.first, hc.second, hc.fourth, hc.fifth, fiveDigits, ascii, hlast, hzero]
  simp only [List.map_cons, List.map_nil, List.cons.injEq, and_true, true_and]
  constructor
  · intro he
    exact (char_inj (by decide) (Nat.mod_lt _ (by decide)) he).symm
  · intro hz
    rw [hz]

/-- The digits of a positive number, one at a time. -/
theorem digits_step (hn : 0 < n) :
    Nat.digits 10 n = n % 10 :: if n / 10 = 0 then [] else Nat.digits 10 (n / 10) := by
  rw [Nat.digits_def' (by decide) hn]
  split
  · next hz => rw [hz, Nat.digits_zero]
  · rfl

/-- The digits of any number, one at a time. -/
theorem decimal_step (n : ℕ) :
    decimal n = n % 10 :: if n / 10 = 0 then [] else Nat.digits 10 (n / 10) := by
  rw [decimal]
  by_cases hn : n = 0
  · rw [if_pos hn, hn]
    rfl
  · rw [if_neg hn, digits_step (Nat.pos_of_ne_zero hn)]

/-- A list put behind a condition, character by character. -/
theorem ascii_ite {p : Prop} [Decidable p] (ds : List ℕ) :
    ascii (if p then [] else ds) = if p then [] else ascii ds := by
  split <;> rfl

/-- The tests of the truncating helper ask whether digits are left. -/
theorem tests (h : q.toNat < 100000) : (sum1 q = 0 ↔ q.toNat / 10 = 0) ∧
    (sum2 q = 0 ∧ nib3 q = 0 ↔ q.toNat / 100 = 0) ∧ (sum3 q = 0 ↔ q.toNat / 1000 = 0) ∧
      (tenth3 q = 0 ↔ q.toNat / 10000 = 0) := by
  have hs := sums h
  have hleast := hs.second_least
  have hzero : ∀ x : UInt32, x = 0 ↔ x.toNat = 0 := fun x => UInt32.toNat_inj.symm
  have hlast : q.toNat / 10000 = (tenth3 q).toNat := by
    rw [hs.tenth_fourth, ← hs.fourth]
    exact (Nat.div_div_eq_div_mul q.toNat 1000 10).symm
  rw [hzero, hzero, hzero, hzero, hzero, hs.second, hs.third, hs.fourth, hlast]
  exact ⟨by omega, by omega, Iff.rfl, Iff.rfl⟩

/-- `put_dec_trunc` stores the digits without leading zeros. -/
theorem putDecTrunc_eq (h : q.toNat < 100000) : putDecTrunc q = ascii (decimal q.toNat) := by
  have hc := chars h
  obtain ⟨hten, hhundred, hthousand, hlast⟩ := tests h
  have hdiv : q.toNat / 10 / 10 = q.toNat / 100 := Nat.div_div_eq_div_mul q.toNat 10 10
  have hdiv' : q.toNat / 100 / 10 = q.toNat / 1000 := Nat.div_div_eq_div_mul q.toNat 100 10
  have hdiv'' : q.toNat / 1000 / 10 = q.toNat / 10000 := Nat.div_div_eq_div_mul q.toNat 1000 10
  have hcons : ∀ (d : ℕ) (ds : List ℕ), ascii (d :: ds) = UInt8.ofNat (d + 48) :: ascii ds :=
    fun _ _ => rfl
  rw [(helpers_eq q).2, decimal_step, hcons, ascii_ite, hc.first]
  simp only [hten, hhundred, hthousand, hlast]
  congr 1
  by_cases h1 : q.toNat / 10 = 0
  · rw [if_pos h1, if_pos h1]
  rw [if_neg h1, if_neg h1, digits_step (Nat.pos_of_ne_zero h1), hdiv, hcons, ascii_ite, hc.second]
  congr 1
  by_cases h2 : q.toNat / 100 = 0
  · rw [if_pos h2, if_pos h2]
  rw [if_neg h2, if_neg h2, digits_step (Nat.pos_of_ne_zero h2), hdiv', hcons, ascii_ite, hc.third]
  congr 1
  by_cases h3 : q.toNat / 1000 = 0
  · rw [if_pos h3, if_pos h3]
  rw [if_neg h3, if_neg h3, digits_step (Nat.pos_of_ne_zero h3), hdiv'', hcons, ascii_ite,
    hc.fourth]
  congr 1
  by_cases h4 : q.toNat / 10000 = 0
  · rw [if_pos h4, if_pos h4]
  have hend : q.toNat / 10000 / 10 = 0 := by omega
  have hdigit : q.toNat / 10000 % 10 = q.toNat / 10000 := Nat.mod_eq_of_lt (by omega)
  rw [if_neg h4, if_neg h4, digits_step (Nat.pos_of_ne_zero h4), if_pos hend, hdigit, hc.fifth]
  rfl

/-- A number of more than five digits is not changed by a round, so that the loop never ends. -/
theorem putDecFrom_large {num : UInt64} (h : ¬ num < 100000) (fuel : ℕ) :
    putDecFrom num fuel = none := by
  induction fuel with
  | zero => rfl
  | succ fuel ih => rw [putDecFrom, if_neg h, ih, Option.map_none]

/-- A number of at most five digits is converted in the first round. -/
theorem putDecFrom_small {num : UInt64} (h : num < 100000) :
    putDecFrom num 1 = some (ascii (decimal num.toNat)) := by
  have hlt : num.toNat < 100000 := UInt64.lt_iff_toNat_lt.mp h
  have hsame : num.toUInt32.toNat = num.toNat := by
    rw [UInt64.toNat_toUInt32]
    exact Nat.mod_eq_of_lt (hlt.trans (by decide))
  rw [putDecFrom, if_pos h, putDecTrunc_eq (by rwa [hsame]), hsame]

/-- What the loop gives with enough fuel. -/
theorem putDec_eq (num : UInt64) (out : List UInt8) :
    putDec num = some out ↔ ∃ fuel, putDecFrom num fuel = some out := by
  rw [putDec]
  by_cases h : num < 100000
  · have hone : putDecFrom num 1 = some (putDecTrunc num.toUInt32) := by
      rw [putDecFrom, if_pos h]
    rw [if_pos h]
    constructor
    · exact fun ho => ⟨1, hone.trans ho⟩
    · rintro ⟨fuel, hf⟩
      cases fuel with
      | zero => cases hf
      | succ fuel => rwa [putDecFrom, if_pos h] at hf
  · rw [if_neg h]
    constructor
    · intro ho
      cases ho
    · rintro ⟨fuel, hf⟩
      rw [putDecFrom_large h] at hf
      cases hf

/-- The characters of the digits of a number read back as the number. -/
theorem readBack_decimal (n : ℕ) : readBack (ascii (decimal n)) = n := by
  have hdigit : ∀ d ∈ decimal n, (UInt8.ofNat (d + 48)).toNat - 48 = d := fun d hd => by
    have hlt : d < 10 := by
      rw [decimal] at hd
      split at hd
      · rw [List.mem_singleton.mp hd]
        decide
      · exact Nat.digits_lt_base (by decide) hd
    rw [UInt8.toNat_ofNat', Nat.mod_eq_of_lt (by omega), Nat.add_sub_cancel]
  have hmap : (decimal n).map ((fun c => c.toNat - 48) ∘ fun d => UInt8.ofNat (d + 48)) =
      decimal n := (List.map_congr_left hdigit).trans (List.map_id' _)
  rw [readBack, ascii, List.map_map, hmap, decimal]
  split
  · next hn => rw [hn]; rfl
  · exact Nat.ofDigits_digits 10 n

/-- `put_dec` stores the digits of the numbers below 100000 only; `put_dec_full` stores those of a
number whose third digit is zero only; `put_dec_trunc` stores those of every number of at most
five digits. -/
theorem putDec_exact (num : UInt64) (q : UInt32) :
    (0 < num → ((∃ fuel out, putDecFrom num fuel = some out ∧
      out = ascii (decimal num.toNat) ∧ readBack out = num.toNat) ↔ num < 100000)) ∧
    (q < 100000 → (putDecFull q = ascii (fiveDigits q.toNat) ↔ q.toNat / 100 % 10 = 0)) ∧
    (q < 100000 → putDecTrunc q = ascii (decimal q.toNat)) := by
  have hlt : q < 100000 → q.toNat < 100000 := fun h => UInt32.lt_iff_toNat_lt.mp h
  refine ⟨fun _ => ⟨?_, fun h => ?_⟩, fun h => putDecFull_iff (hlt h),
    fun h => putDecTrunc_eq (hlt h)⟩
  · rintro ⟨fuel, out, hf, -⟩
    by_contra h
    rw [putDecFrom_large h] at hf
    cases hf
  · exact ⟨1, _, putDecFrom_small h, rfl, readBack_decimal _⟩

/-- 907 is converted, and its digits read back. -/
theorem putDec_exact_small : (∃ fuel out, putDecFrom 907 fuel = some out ∧
    out = ascii (decimal 907) ∧ readBack out = 907) ∧ putDecTrunc 907 = ascii (decimal 907) :=
  ⟨((putDec_exact 907 0).1 (by decide)).mpr (by decide), (putDec_exact 0 907).2.2 (by decide)⟩

/-- 123456 is never converted, and the five digits of 12345 come out as 12045. -/
theorem putDec_counterexample :
    (∀ fuel, putDecFrom 123456 fuel = none) ∧ putDecFull 12345 = ascii [5, 4, 0, 2, 1] ∧
      putDecFull 12345 ≠ ascii (fiveDigits 12345) :=
  ⟨putDecFrom_large (by decide), by decide, by decide⟩

end BiscuitOS.VsprintfDecimal
