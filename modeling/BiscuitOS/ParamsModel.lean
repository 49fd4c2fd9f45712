import BiscuitOS.MachineWord

/-!
# Options on a line

`parse_args` and what it uses in `kernel/params.c`, and `skip_spaces` of
`lib/string.c`. The line is its bytes up to the terminator, and an access
behind the terminator ends in a fault. Indices of type `unsigned int` are
words of 32 bits. What the set functions do is a function on the world. White
space is what `isspace` of the C library says in `kernel/params.c`, which does
not include `linux/ctype.h`, and what its table says in `lib/string.c`.
-/

namespace BiscuitOS.ParamsModel

open MachineWord

/-- `EINVAL`. -/
def einval : ℤ := 22

/-- `ENOENT`. -/
def enoent : ℤ := 2

/-- A line in memory. -/
structure Line where
  /-- The bytes, by offset. -/
  bytes : ℕ → UInt8
  /-- The offset of the terminator at first. -/
  last : ℕ

/-- Read a byte. -/
def Line.read (l : Line) (pos : ℕ) : Option UInt8 :=
  if pos ≤ l.last then some (l.bytes pos) else none

/-- Write a byte. -/
def Line.write (l : Line) (pos : ℕ) (c : UInt8) : Option Line :=
  if pos ≤ l.last then some { l with bytes := Function.update l.bytes pos c } else none

/-- `isspace` of the C library. -/
def isSpace (c : UInt8) : Bool := (9 ≤ c && c ≤ 13) || c = 32

/-- `isspace` of `linux/ctype.h`: the bytes with `_S` in the table. -/
def tableSpace (c : UInt8) : Bool := (9 ≤ c && c ≤ 13) || c = 32 || c = 160

/-- The quote. -/
def quote : UInt8 := 34

/-- The equals sign. -/
def equalsSign : UInt8 := 61

/-- `skip_spaces`, with fuel. -/
def skipSpaces (l : Line) (pos : ℕ) : ℕ → Option ℕ
  | 0 => none
  | fuel + 1 =>
    (l.read pos).bind fun c => if tableSpace c then skipSpaces l (pos + 1) fuel else some pos

/-- `dash2underscore`. -/
def dash2underscore (c : UInt8) : UInt8 := if c = 45 then 95 else c

/-- `parameq` from index `i` on, with fuel: `paramname` ends with its terminator. -/
def parameq (l : Line) (input : ℕ) (paramname : List UInt8) (i : ℕ) : ℕ → Option Bool
  | 0 => none
  | fuel + 1 =>
    (l.read (input + i)).bind fun c =>
    ((paramname ++ [0])[i]?).bind fun d =>
      if dash2underscore c = d then
        if c = 0 then some true else parameq l input paramname (wrap 32 (i + 1)) fuel
      else some false

/-- A string in the line, with fuel for its bytes. -/
def stringAt (l : Line) (pos : ℕ) : ℕ → Option (List UInt8)
  | 0 => none
  | fuel + 1 =>
    (l.read pos).bind fun c =>
      if c = 0 then some [] else (stringAt l (pos + 1) fuel).map fun s => c :: s

variable {σ : Type*}

/-- `struct kernel_param`. -/
structure KernelParam (σ : Type*) where
  /-- `name`. -/
  name : List UInt8
  /-- The name ends with its terminator. -/
  proper : 0 ∉ name
  /-- `ops->set` is `param_set_bool`. -/
  isBool : Bool
  /-- `ops->set`: the value, none for `NULL`. -/
  set : Option (List UInt8) → σ → ℤ × σ

/-- The value that a function is called with. -/
def valueAt (l : Line) (val : Option ℕ) (fuel : ℕ) : Option (Option (List UInt8)) :=
  match val with
  | none => some none
  | some pos => (stringAt l pos fuel).map some

/-- `parse_one`, with fuel for its loops over strings. -/
def parseOne (l : Line) (param : ℕ) (val : Option ℕ)
    (handleUnknown : Option (List UInt8 → Option (List UInt8) → σ → ℤ × σ)) (world : σ) (fuel : ℕ) :
    List (KernelParam σ) → Option (ℤ × σ)
  | [] =>
    match handleUnknown with
    | none => some (-enoent, world)
    | some unknown =>
      (stringAt l param fuel).bind fun name =>
        (valueAt l val fuel).map fun value => unknown name value world
  | kp :: params =>
    (parameq l param kp.name 0 fuel).bind fun same =>
      if same then
        if val = none ∧ kp.isBool = false then some (-einval, world)
        else (valueAt l val fuel).map fun value => kp.set value world
      else parseOne l param val handleUnknown world fuel params

/-- The loop of `next_arg`, with fuel: the end of the option and its first equals sign, zero for
none. -/
def scan (l : Line) (args i equals : ℕ) (inQuote : Bool) : ℕ → Option (ℕ × ℕ)
  | 0 => none
  | fuel + 1 =>
    (l.read (args + i)).bind fun c =>
      if c = 0 then some (i, equals)
      else if isSpace c && !inQuote then some (i, equals)
      else
        scan l args (wrap 32 (i + 1)) (if equals = 0 ∧ c = equalsSign then i else equals)
          (if c = quote then !inQuote else inQuote) fuel

/-- What `next_arg` gives. -/
structure Arg where
  /-- The line with terminators. -/
  line : Line
  /-- `param`. -/
  param : ℕ
  /-- `val`, none for `NULL`. -/
  val : Option ℕ
  /-- The rest of the line. -/
  next : ℕ

/-- Cut a quote off at an offset. -/
def cutQuote (l : Line) (pos : ℕ) : Option Line :=
  (l.read pos).bind fun c => if c = quote then l.write pos 0 else some l

/-- The value of an option whose first equals sign is at `equals`: the line, and where it is. -/
def takeValue (l : Line) (args i equals : ℕ) (quoted : Bool) : Option (Line × ℕ) :=
  (l.write (args + equals) 0).bind fun l =>
  (l.read (args + equals + 1)).bind fun c =>
  (if c = quote then cutQuote l (args + wrapSub 32 i 1) else some l).bind fun l =>
  (if quoted then cutQuote l (args + wrapSub 32 i 1) else some l).map fun l =>
    (l, if c = quote then args + equals + 1 + 1 else args + equals + 1)

/-- The end of `next_arg`: terminate the option of `i` bytes and chew up the spaces behind it. -/
def endArg (l : Line) (args i : ℕ) (val : Option ℕ) (fuel : ℕ) : Option Arg :=
  (l.read (args + i)).bind fun c =>
  (if c ≠ 0 then (l.write (args + i) 0).map fun l => (l, args + i + 1) else some (l, args + i)).bind fun n =>
  (skipSpaces n.1 n.2 fuel).map fun next => ⟨n.1, args, val, next⟩

/-- `next_arg`, with fuel for its loops. -/
def nextArg (l : Line) (args fuel : ℕ) : Option Arg :=
  (l.read args).bind fun first =>
  let quoted := decide (first = quote)
  let args := if quoted then args + 1 else args
  (scan l args 0 0 quoted fuel).bind fun r =>
  (if r.2 = 0 then some (l, none)
    else (takeValue l args r.1 r.2 quoted).map fun v => (v.1, some v.2)).bind fun v =>
  endArg v.1 args r.1 v.2 fuel

/-- The loop of `parse_args`, with fuel for itself and, in `strings`, for the loops inside it. -/
def parseLoop (params : List (KernelParam σ))
    (unknown : Option (List UInt8 → Option (List UInt8) → σ → ℤ × σ)) (strings : ℕ) (l : Line)
    (args : ℕ) (world : σ) : ℕ → Option (ℤ × σ)
  | 0 => none
  | fuel + 1 =>
    (l.read args).bind fun c =>
      if c = 0 then some (0, world)
      else
        (nextArg l args strings).bind fun a =>
        (parseOne a.line a.param a.val unknown world strings params).bind fun r =>
          if r.1 = 0 then parseLoop params unknown strings a.line a.next r.2 fuel else some r

/-- `parse_args`, with fuel for its loops. -/
def parseArgs (params : List (KernelParam σ))
    (unknown : Option (List UInt8 → Option (List UInt8) → σ → ℤ × σ)) (l : Line) (world : σ)
    (fuel : ℕ) : Option (ℤ × σ) :=
  (skipSpaces l 0 fuel).bind fun args => parseLoop params unknown fuel l args world fuel

end BiscuitOS.ParamsModel
