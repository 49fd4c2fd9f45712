import BiscuitOS.MachineWord
import BiscuitOS.VsprintfModel

/-!
# Parsing numbers

The copies of `simple_strtoull` in `lib/string.c` and `lib/vsprintf.c`, and
`memparse` of `lib/cmdline.c`. A string is memory from a pointer on, where
reading may fail behind the terminator. End pointers are distances from the
start. The copies differ in how they guess a base and in what they skip.
-/

namespace BiscuitOS.StrtoullModel

open MachineWord VsprintfModel

/-- Memory from a pointer on. -/
abbrev Chars := ℕ → Option UInt8

/-- `isxdigit`: the bytes with `_D` or `_X` in the table. -/
def isXdigit (c : UInt8) : Bool := isDigit c || (65 ≤ c && c ≤ 70) || (97 ≤ c && c ≤ 102)

/-- `value` in the loop of `simple_strtoull`. -/
def digitValue (c : UInt8) : ℕ :=
  if isDigit c then c.toNat - (code '0').toNat else (toLower c).toNat - (code 'a').toNat + 10

/-- The loop of `simple_strtoull` with the rounds allowed: `result` and `cp` where it ends. -/
def strtoullLoop (s : Chars) (base : ℕ) : ℕ → ℕ → ℕ → Option (ℕ × ℕ)
  | 0, _, _ => none
  | fuel + 1, cp, result =>
    (s cp).bind fun c =>
      if isXdigit c then
        if base ≤ digitValue c then some (result, cp)
        else strtoullLoop s base fuel (cp + 1) (wrap 64 (result * base + digitValue c))
      else some (result, cp)

/-- `simple_strtoull`, for what guesses the base and the second byte behind which digits start. -/
def simpleStrtoullWith (guess : Chars → Option ℕ) (skips : UInt8 → Bool) (fuel : ℕ) (s : Chars)
    (base : ℕ) : Option (ℕ × ℕ) :=
  (if base = 0 then guess s else some base).bind fun base =>
    (if base = 16 then
      (s 0).bind fun c =>
        if c = code '0' then (s 1).map fun d => if skips d then 2 else 0 else some 0
      else some 0).bind fun cp => strtoullLoop s base fuel cp 0

namespace Str

/-- `simple_guess_base` of `lib/string.c`. -/
def simpleGuessBase (s : Chars) : Option ℕ :=
  (s 0).bind fun c =>
    if c = code '0' then
      (s 1).bind fun d =>
        if toLower d = code 'X' then (s 2).map fun e => if isXdigit e then 16 else 8 else some 8
    else some 10

/-- `simple_strtoull` of `lib/string.c`, where a comparison stands inside the `TOLOWER`. -/
def simpleStrtoull : ℕ → Chars → ℕ → Option (ℕ × ℕ) :=
  simpleStrtoullWith simpleGuessBase fun d => (decide (d = code 'X')).toNat ||| 0x20 ≠ 0

end Str

namespace Vsprintf

/-- `simple_guess_base` of `lib/vsprintf.c`, where the whole test stands inside the `TOLOWER`. -/
def simpleGuessBase (s : Chars) : Option ℕ :=
  (s 0).bind fun c =>
    if c = code '0' then
      (s 1).bind fun d =>
        (if d = code 'x' then (s 2).map isXdigit else some false).map fun hex =>
          if hex.toNat ||| 0x20 ≠ 0 then 16 else 8
    else some 10

/-- `simple_strtoull` of `lib/vsprintf.c`. -/
def simpleStrtoull : ℕ → Chars → ℕ → Option (ℕ × ℕ) :=
  simpleStrtoullWith simpleGuessBase fun d => toLower d = code 'X'

end Vsprintf

/-- What a caller without a prototype sees of a value of 64 bits: an `int`, extended by its sign. -/
def asInt (v : ℕ) : ℕ := toUnsigned 64 (toSigned 32 v)

/-- `memparse`: the value and `retptr`. Nothing declares `simple_strtoull` in `lib/cmdline.c`, so
its value is an `int` there. The cases of the `switch` fall through. -/
def memparse (fuel : ℕ) (s : Chars) : Option (ℕ × ℕ) :=
  (Str.simpleStrtoull fuel s 0).bind fun r =>
    (s r.2).map fun c =>
      let ret := asInt r.1
      let endptr := r.2
      let giga := c = code 'G' ∨ c = code 'g'
      let mega := giga ∨ c = code 'M' ∨ c = code 'm'
      let kilo := mega ∨ c = code 'K' ∨ c = code 'k'
      let ret := if giga then wrap 64 (ret <<< 10) else ret
      let ret := if mega then wrap 64 (ret <<< 10) else ret
      if kilo then (wrap 64 (ret <<< 10), endptr + 1) else (ret, endptr)

/-- Memory holds a string and its terminator. -/
structure Holds (s : Chars) (text : List UInt8) : Prop where
  /-- The bytes of the string are there. -/
  bytes : ∀ i (hi : i < text.length), s i = some (text.get ⟨i, hi⟩)
  /-- The terminator follows. -/
  terminated : s text.length = some 0
  /-- None of them is one. -/
  nonzero : ∀ c ∈ text, c ≠ 0

/-- A digit of a base. -/
def validDigit (base : ℕ) (c : UInt8) : Bool := isXdigit c && decide (digitValue c < base)

/-- The longest run of digits. -/
def digitRun (base : ℕ) (text : List UInt8) : List UInt8 := text.takeWhile (validDigit base)

/-- The value of some digits. -/
def valueOf (base : ℕ) : List UInt8 → ℕ
  | [] => 0
  | c :: rest => digitValue c * base ^ rest.length + valueOf base rest

/-- A string starts with `0x` or `0X`. -/
def startsHex : List UInt8 → Bool
  | c :: d :: _ => c = code '0' && (d = code 'x' || d = code 'X')
  | _ => false

/-- And a hex digit follows. -/
def hexPrefix (text : List UInt8) : Bool := startsHex text && isXdigit ((text.drop 2).headD 0)

/-- The base that a string is to be read in. -/
def grammarBase (base : ℕ) (text : List UInt8) : ℕ :=
  if base = 0 then
    if hexPrefix text then 16 else if text.headD 0 = code '0' then 8 else 10
  else base

/-- What is to be skipped. -/
def skipped (base : ℕ) (text : List UInt8) : ℕ := if base = 16 ∧ startsHex text then 2 else 0

/-- The value and the end that a string is to have. -/
def grammar (base : ℕ) (text : List UInt8) : ℕ × ℕ :=
  let base := grammarBase base text
  let run := digitRun base (text.drop (skipped base text))
  (valueOf base run % 2 ^ 64, skipped base text + run.length)

/-- The power of 1024 that a suffix stands for. -/
def suffixPower (c : UInt8) : ℕ :=
  if c = code 'k' ∨ c = code 'K' then 1 else if c = code 'm' ∨ c = code 'M' then 2
  else if c = code 'g' ∨ c = code 'G' then 3 else 0

/-- The value and the end that a string with a suffix is to have. -/
def memGrammar (text : List UInt8) : ℕ × ℕ :=
  let number := grammar 0 text
  let power := suffixPower ((text.drop number.2).headD 0)
  (number.1 * 1024 ^ power % 2 ^ 64, if power = 0 then number.2 else number.2 + 1)

/-- Both copies and `memparse` follow the grammar on a string. -/
structure Parsed (s : Chars) (text : List UInt8) (base : ℕ) : Prop where
  /-- The copy of `lib/string.c`. -/
  string : ∀ fuel, text.length < fuel → Str.simpleStrtoull fuel s base = some (grammar base text)
  /-- The copy of `lib/vsprintf.c`. -/
  vsprintf : ∀ fuel, text.length < fuel →
    Vsprintf.simpleStrtoull fuel s base = some (grammar base text)
  /-- `memparse`, which guesses the base. -/
  memparse : ∀ fuel, base = 0 → text.length < fuel → memparse fuel s = some (memGrammar text)

/-- A number fits an `int`, up to the bits that its suffix shifts out. -/
def Narrow (v power : ℕ) : Prop :=
  v % 2 ^ (64 - 10 * power) < 2 ^ 31 ∨
    2 ^ (64 - 10 * power) - 2 ^ 31 ≤ v % 2 ^ (64 - 10 * power)

instance (v power : ℕ) : Decidable (Narrow v power) :=
  inferInstanceAs (Decidable (_ ∨ _))

/-- A string with a leading zero is read as the grammar says: without a base it has no hex prefix and
its digits stand for the same number in octal and in hex; in hex its second byte is a digit that is
zero or cut off. Without a base, where `memparse` reads the string too, its number fits an `int`. -/
structure Agreed (text : List UInt8) (base : ℕ) : Prop where
  /-- There is no hex prefix to guess the base from. -/
  plain : base = 0 → text.headD 0 = code '0' → hexPrefix text = false
  /-- The digits of a number without a base are octal. -/
  octal : base = 0 → text.headD 0 = code '0' → digitRun 16 text = digitRun 8 text
  /-- They have one value in both bases. -/
  same : base = 0 → text.headD 0 = code '0' →
    valueOf 16 (digitRun 16 text) % 2 ^ 64 = valueOf 8 (digitRun 8 text) % 2 ^ 64
  /-- The byte behind the zero of a hex number is a digit. -/
  second : base = 16 → text.headD 0 = code '0' → isXdigit (text.tail.headD 0) = true
  /-- It is zero, or sixteen digits follow. -/
  cut : base = 16 → text.headD 0 = code '0' →
    digitValue (text.tail.headD 0) = 0 ∨ 16 ≤ (digitRun 16 (text.drop 2)).length
  /-- The number of `memparse` fits an `int`. -/
  narrow : base = 0 →
    Narrow (grammar 0 text).1 (suffixPower ((text.drop (grammar 0 text).2).headD 0))

end BiscuitOS.StrtoullModel
