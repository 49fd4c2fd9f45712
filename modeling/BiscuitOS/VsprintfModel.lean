import BiscuitOS.MachineWord
import BiscuitOS.TruncatingSink

/-!
# Formatted output

`vsnprintf` and what it uses in `lib/vsprintf.c`, and `kvasprintf`. A pointer
into the buffer is its offset, the sink is the buffer with the cursor `str`
and the end `end`. Formats are their bytes up to the terminator, a `va_list` is
the bytes from its address on, and what the arguments point to lies in a memory
apart from the buffer. A computation without a value meets a fault or never ends. A counting
loop that wraps at 16 bits is given by the number of its rounds; the lemma
next to it is the loop itself.
-/

namespace BiscuitOS.VsprintfModel

open TruncatingSink

/-- What the arguments point to: the byte at an address, none where nothing is mapped. -/
abbrev Memory := ℕ → Option UInt8

/-- A computation that puts bytes. -/
abbrev Out (β : Type) := Emitter UInt8 β

/-- The code of a character. -/
def code (c : Char) : UInt8 := c.toUInt8

/-- `enum format_type`. -/
inductive FormatType where
  | none | width | precision | char | str | ptr | percentChar | invalid | longLong | ulong | long
  | ubyte | byte | ushort | short | uint | int | nrchars | sizeT | ptrdiff
  deriving DecidableEq

/-- `struct printf_spec`. -/
structure PrintfSpec where
  /-- `type`. -/
  type : FormatType
  /-- `flags`. -/
  flags : UInt8
  /-- `base`. -/
  base : UInt8
  /-- `qualifier`. -/
  qualifier : UInt8
  /-- `field_width`. -/
  fieldWidth : Int16
  /-- `precision`. -/
  precision : Int16
  deriving DecidableEq

/-- `struct printf_spec spec = {0}`. -/
def PrintfSpec.zero : PrintfSpec := ⟨.none, 0, 0, 0, 0, 0⟩

/-- `ZEROPAD`. -/
def zeropad : UInt8 := 1

/-- `SIGN`. -/
def sign : UInt8 := 2

/-- `PLUS`. -/
def plus : UInt8 := 4

/-- `SPACE`. -/
def space : UInt8 := 8

/-- `LEFT`. -/
def left : UInt8 := 16

/-- `SMALL`. -/
def small : UInt8 := 32

/-- `SPECIAL`. -/
def special : UInt8 := 64

/-- `PAGE_SIZE`. -/
def pageSize : ℕ := 4096

/-- `INT_MAX`. -/
def intMax : ℕ := 2 ^ 31 - 1

/-- `TOLOWER`. -/
def toLower (c : UInt8) : UInt8 := c ||| 0x20

/-- `isdigit`: the bytes with `_D` in the table. -/
def isDigit (c : UInt8) : Bool := 48 ≤ c && c ≤ 57

/-- `isalnum` of the C library. -/
def isAlnum (c : UInt8) : Bool := isDigit c || (65 ≤ c && c ≤ 90) || (97 ≤ c && c ≤ 122)

/-- `skip_atoi`. -/
def skipAtoi (i : Int32) : List UInt8 → Int32 × List UInt8
  | [] => (i, [])
  | c :: rest =>
    if isDigit c then skipAtoi (i * 10 + Int32.ofNat c.toNat - 48) rest else (i, c :: rest)

/-- A string in memory of its own, with its terminator. -/
def cstring (bytes : List UInt8) (i : ℕ) : Option UInt8 := (bytes ++ [0])[i]?

/-- A string literal. -/
def literal (s : String) : ℕ → Option UInt8 := cstring (s.toList.map code)

/-- `strnlen`. -/
def strnlen (s : ℕ → Option UInt8) : ℕ → Option ℕ
  | 0 => some 0
  | count + 1 =>
    (s 0).bind fun c =>
      if c = 0 then some 0 else (strnlen (fun i => s (i + 1)) count).map (· + 1)

/-- The loop `while (--width >= least)` that puts `c`. -/
def padDown (c : UInt8) (least : ℤ) (width : Int16) : Out Int16 :=
  let next := width - 1
  if least ≤ next.toInt then do
    fill c (next.toInt - least + 1).toNat
    pure (Int16.ofInt (least - 1))
  else pure next

/-- The loop `while (len < width--)` that puts a space; it never ends for a length below every
width. -/
def padAbove (len : ℤ) (width : Int16) : Out Int16 :=
  if len < width.toInt then
    if len < -2 ^ 15 then fetch none
    else do
      fill (code ' ') (width.toInt - len).toNat
      pure (Int16.ofInt (len - 1))
  else pure (width - 1)

/-- `put_dec_trunc`: the digits, least significant first. -/
def putDecTrunc (q : UInt32) : List UInt8 :=
  let d1 := (q >>> 4) &&& 0xf
  let d2 := (q >>> 8) &&& 0xf
  let d3 := q >>> 12
  let d0 := 6 * (d3 + d2 + d1) + (q &&& 0xf)
  let q := (d0 * 0xcd) >>> 11
  let d0 := d0 - 10 * q
  let d1 := q + 9 * d3 + 5 * d2 + d1
  (d0 + 48).toUInt8 ::
    if d1 = 0 then [] else
      let q := (d1 * 0xcd) >>> 11
      let d1 := d1 - 10 * q
      let d2 := q + 2 * d2
      (d1 + 48).toUInt8 ::
        if d2 = 0 ∧ d3 = 0 then [] else
          let q := (d2 * 0xd) >>> 7
          let d2 := d2 - 10 * q
          let d3 := q + 4 * d3
          (d2 + 48).toUInt8 ::
            if d3 = 0 then [] else
              let q := (d3 * 0xcd) >>> 11
              let d3 := d3 - 10 * q
              (d3 + 48).toUInt8 :: if q = 0 then [] else [(q + 48).toUInt8]

/-- `put_dec`. Its `do_div` leaves the number as it is, so the loop never ends for a number of
more than five digits. -/
def putDec (num : UInt64) : Option (List UInt8) :=
  if num < 100000 then some (putDecTrunc num.toUInt32) else none

/-- `digits` of `number`. -/
def digits : List UInt8 := "0123456789ABCDEF".toList.map code

/-- The digits of a number by shifts, least significant first, with fuel for 64 bits. -/
def putShifted (mask locase : UInt8) (shift : UInt64) (num : UInt64) : ℕ → List UInt8
  | 0 => []
  | fuel + 1 =>
    (digits.getD (num.toUInt8 &&& mask).toNat 0 ||| locase) ::
      if num >>> shift = 0 then [] else putShifted mask locase shift (num >>> shift) fuel

/-- `tmp` of `number`: the digits in reverse order. -/
def numberDigits (num : UInt64) (base locase : UInt8) : Option (List UInt8) :=
  if num = 0 then some [code '0']
  else if base ≠ 10 then
    some (putShifted (base - 1) locase (if base = 16 then 4 else 3) num 64)
  else putDec num

/-- The sign of a number, its magnitude, and the width that is left. -/
def signOf (num : UInt64) (spec : PrintfSpec) : List UInt8 × UInt64 × Int16 :=
  if spec.flags &&& sign ≠ 0 then
    if num.toInt64 < 0 then ([code '-'], (-num.toInt64).toUInt64, spec.fieldWidth - 1)
    else if spec.flags &&& plus ≠ 0 then ([code ' '], num, spec.fieldWidth - 1)
    else ([], num, spec.fieldWidth)
  else ([], num, spec.fieldWidth)

/-- The prefix of a number, and the width that is left. -/
def prefixOf (spec : PrintfSpec) (locase : UInt8) (width : Int16) : List UInt8 × Int16 :=
  if spec.flags &&& special ≠ 0 ∧ spec.base ≠ 10 then
    if spec.base = 16 then ([code '0', code 'X' ||| locase], width - 1 - 1)
    else ([code '0'], width - 1)
  else ([], width)

/-- Padding under a condition. -/
def padIf (p : Prop) [Decidable p] (c : UInt8) (width : Int16) : Out Int16 :=
  if p then padDown c 0 width else pure width

/-- `number`. -/
def number (num : UInt64) (spec : PrintfSpec) : Out Unit := do
  let locase := spec.flags &&& small
  let signed := signOf num spec
  let pfx := prefixOf spec locase signed.2.2
  let tmp ← fetch (numberDigits signed.2.1 spec.base locase)
  let precision :=
    if spec.precision.toInt < tmp.length then Int16.ofNat tmp.length else spec.precision
  let width ← padIf (spec.flags &&& (zeropad + left) = 0) (code ' ') (pfx.2 - precision)
  putAll signed.1
  putAll pfx.1
  let width ← padIf (spec.flags &&& left = 0)
    (if spec.flags &&& zeropad ≠ 0 then code '0' else code ' ') width
  let _ ← padDown (code '0') tmp.length precision
  putAll tmp.reverse
  let _ ← padDown (code ' ') 0 width
  pure ()

/-- The characters of a string from an index on. -/
def putString (s : ℕ → Option UInt8) (i : ℕ) : ℕ → Out Unit
  | 0 => pure ()
  | n + 1 => do
    let c ← fetch (s i)
    put c
    putString s (i + 1) n

/-- Padding on the left, unless the field is left justified. -/
def padLeading (spec : PrintfSpec) (pad : Out Int16) : Out Int16 :=
  if spec.flags &&& left = 0 then pad else pure spec.fieldWidth

/-- `string`, on the bytes from `s` on. -/
def stringBytes (s : ℕ → Option UInt8) (spec : PrintfSpec) : Out Unit := do
  let n ← fetch (strnlen s spec.precision.toInt64.toUInt64.toNat)
  let len := (Int32.ofNat n).toInt
  let width ← padLeading spec (padAbove len spec.fieldWidth)
  putString s 0 len.toNat
  let _ ← padAbove len width
  pure ()

/-- `string`. -/
def string (memory : Memory) (s : UInt64) (spec : PrintfSpec) : Out Unit :=
  stringBytes (if s.toNat < pageSize then literal "(null)" else fun i => memory (s.toNat + i)) spec

/-- `symbol_string`. -/
def symbolString (ptr : UInt64) (spec : PrintfSpec) : Out Unit :=
  number ptr { spec with
    fieldWidth := 16, flags := spec.flags ||| (special ||| small ||| zeropad), base := 16 }

/-- Read `n` bytes, least significant first. -/
def load (memory : Memory) (addr : ℕ) : ℕ → Option ℕ
  | 0 => some 0
  | n + 1 =>
    (memory addr).bind fun c => (load memory (addr + 1) n).map fun high => c.toNat + 256 * high

/-- `io_spec`. -/
def ioSpec : PrintfSpec := ⟨.none, special ||| small ||| zeropad, 16, 0, 6, -1⟩

/-- `mem_spec`. -/
def memSpec : PrintfSpec := ⟨.none, special ||| small ||| zeropad, 16, 0, 10, -1⟩

/-- `bus_spec`. -/
def busSpec : PrintfSpec := ⟨.none, small ||| zeropad, 16, 0, 2, -1⟩

/-- `dec_spec`. -/
def decSpec : PrintfSpec := ⟨.none, 0, 10, 0, 0, -1⟩

/-- `str_spec`. -/
def strSpec : PrintfSpec := ⟨.none, left, 0, 0, -1, 10⟩

/-- `flag_spec`. -/
def flagSpec : PrintfSpec := ⟨.none, special ||| small, 16, 0, 0, -1⟩

/-- The kind of a resource, how its bounds are printed, and whether its flags may be decoded. -/
def resourceKind (flags : UInt64) : String × PrintfSpec × Bool :=
  if flags &&& 0x100 ≠ 0 then ("io  ", ioSpec, true)
  else if flags &&& 0x200 ≠ 0 then ("mem ", memSpec, true)
  else if flags &&& 0x400 ≠ 0 then ("irq ", decSpec, true)
  else if flags &&& 0x800 ≠ 0 then ("dma ", decSpec, true)
  else if flags &&& 0x1000 ≠ 0 then ("bus ", busSpec, true)
  else ("???", memSpec, false)

/-- The text of a flag that is set. -/
def flagText (flags bit : UInt64) (text : String) : Out Unit :=
  if flags &&& bit ≠ 0 then stringBytes (literal text) strSpec else pure ()

/-- What `resource_string` puts into `sym`. -/
def resourceText (start finish flags : UInt64) (decode : Bool) : Out Unit := do
  let kind := resourceKind flags
  putWithin (code '[')
  stringBytes (literal kind.1) strSpec
  number start kind.2.1
  if start ≠ finish then
    putWithin (code '-')
    number finish kind.2.1
  if decode && kind.2.2 then
    flagText flags 0x100000 " 64bit"
    flagText flags 0x2000 " pref"
    flagText flags 0x200000 "window"
    flagText flags 0x10000000 "disabled"
  else
    stringBytes (literal " flags") strSpec
    number flags flagSpec
  putWithin (code ']')
  putWithin 0

/-- `sizeof(sym)` in `resource_string`. -/
def symSize : ℕ := 59

/-- `resource_string`: the text is made in an array on the stack and printed from there. -/
def resourceString (memory : Memory) (res : UInt64) (spec : PrintfSpec) (ext : List UInt8) :
    Out Unit := do
  let start ← fetch (load memory res.toNat 4)
  let finish ← fetch (load memory (res.toNat + 4) 4)
  let flags ← fetch (load memory (res.toNat + 16) 8)
  let sym ← fetch (resourceText (UInt64.ofNat start) (UInt64.ofNat finish) (UInt64.ofNat flags)
    (ext.headD 0 = code 'R') ⟨fun _ => 0, 0, symSize⟩)
  stringBytes (fun i => if i < symSize then some (sym.2.mem i) else none) spec

/-- `hex_asc`. -/
def hexAsc : List UInt8 := "0123456789abcdef".toList.map code

/-- `pack_hex_byte`. -/
def packHexByte (byte : UInt8) : List UInt8 :=
  [hexAsc.getD ((byte &&& 0xf0) >>> 4).toNat 0, hexAsc.getD (byte &&& 0x0f).toNat 0]

/-- The loop of `mac_address_string`, with the number of rounds left. -/
def macText (memory : Memory) (addr : ℕ) (ext : List UInt8) (separator : UInt8) :
    ℕ → Option (List UInt8)
  | 0 => some []
  | left + 1 =>
    (memory addr).bind fun byte =>
      (macText memory (addr + 1) ext separator left).map fun rest =>
        packHexByte byte ++
          (if ext.headD 0 = code 'M' ∧ left ≠ 0 then [separator] else []) ++ rest

/-- `mac_address_string`. -/
def macAddressString (memory : Memory) (addr : UInt64) (spec : PrintfSpec) (ext : List UInt8) :
    Out Unit := do
  let separator := if ext.tail.headD 0 = code 'F' then code '-' else code ':'
  let text ← fetch (macText memory addr.toNat ext separator 6)
  stringBytes (cstring text) spec

/-- `pointer`: `ext` is what follows the `p`. -/
def pointer (memory : Memory) (ext : List UInt8) (ptr : UInt64) (spec : PrintfSpec) : Out Unit :=
  if ptr = 0 then
    stringBytes (literal "(null)")
      (if spec.fieldWidth = -1 then { spec with fieldWidth := 16 } else spec)
  else
    let c := ext.headD 0
    if c = code 'F' ∨ c = code 'f' ∨ c = code 'S' ∨ c = code 's' then symbolString ptr spec
    else if c = code 'R' ∨ c = code 'r' then resourceString memory ptr spec ext
    else if c = code 'M' ∨ c = code 'm' then macAddressString memory ptr spec ext
    else
      let spec := { spec with flags := spec.flags ||| small }
      let spec :=
        if spec.fieldWidth = -1 then
          { spec with fieldWidth := 16, flags := spec.flags ||| zeropad }
        else spec
      number ptr { spec with base := 16 }

/-- The type of an integer conversion. -/
def integerType (spec : PrintfSpec) : FormatType :=
  let signed := spec.flags &&& sign ≠ 0
  if spec.qualifier = code 'L' then .longLong
  else if spec.qualifier = code 'l' then if signed then .long else .ulong
  else if toLower spec.qualifier = code 'z' then .sizeT
  else if spec.qualifier = code 't' then .ptrdiff
  else if spec.qualifier = code 'H' then if signed then .byte else .ubyte
  else if spec.qualifier = code 'h' then if signed then .short else .ushort
  else if signed then .int else .uint

/-- The end of `format_decode` for an integer conversion. -/
def decodeInteger (spec : PrintfSpec) (rest : List UInt8) : PrintfSpec × List UInt8 :=
  ({ spec with type := integerType spec }, rest)

/-- `format_decode` from the default base on. -/
def decodeType (spec : PrintfSpec) (fmt : List UInt8) : PrintfSpec × List UInt8 :=
  let spec := { spec with base := 10 }
  let c := fmt.headD 0
  if c = code 'c' then ({ spec with type := .char }, fmt.tail)
  else if c = code 's' then ({ spec with type := .str }, fmt.tail)
  else if c = code 'p' then ({ spec with type := .ptr }, fmt)
  else if c = code 'n' then ({ spec with type := .nrchars }, fmt.tail)
  else if c = code '%' then ({ spec with type := .percentChar }, fmt.tail)
  else if c = code 'o' then decodeInteger { spec with base := 8 } fmt.tail
  else if c = code 'x' then
    decodeInteger { spec with base := 16, flags := spec.flags ||| small } fmt.tail
  else if c = code 'X' then decodeInteger { spec with base := 16 } fmt.tail
  else if c = code 'd' ∨ c = code 'i' then
    decodeInteger { spec with flags := spec.flags ||| sign } fmt.tail
  else if c = code 'u' then decodeInteger spec fmt.tail
  else ({ spec with type := .invalid }, fmt)

/-- `format_decode` from `qualifier` on. -/
def decodeQualifier (spec : PrintfSpec) (fmt : List UInt8) : PrintfSpec × List UInt8 :=
  let c := fmt.headD 0
  if c = code 'h' ∨ toLower c = code 'l' ∨ toLower c = code 'z' ∨ c = code 't' then
    if fmt.tail.headD 0 = c then
      if c = code 'l' then decodeType { spec with qualifier := code 'L' } fmt.tail.tail
      else if c = code 'h' then decodeType { spec with qualifier := code 'H' } fmt.tail.tail
      else decodeType { spec with qualifier := c } fmt.tail
    else decodeType { spec with qualifier := c } fmt.tail
  else decodeType { spec with qualifier := 255 } fmt

/-- `format_decode` from `precision` on. -/
def decodePrecision (spec : PrintfSpec) (fmt : List UInt8) : PrintfSpec × List UInt8 :=
  let spec := { spec with precision := -1 }
  if fmt.headD 0 = code '.' then
    let fmt := fmt.tail
    if isDigit (fmt.headD 0) then
      let value := (skipAtoi 0 fmt).1.toInt16
      decodeQualifier { spec with precision := if value < 0 then 0 else value } (skipAtoi 0 fmt).2
    else if fmt.headD 0 = code '*' then ({ spec with type := .precision }, fmt.tail)
    else decodeQualifier spec fmt
  else decodeQualifier spec fmt

/-- The flags of a conversion. -/
def decodeFlags (flags : UInt8) : List UInt8 → UInt8 × List UInt8
  | [] => (flags, [])
  | c :: rest =>
    if c = code '-' then decodeFlags (flags ||| left) rest
    else if c = code '+' then decodeFlags (flags ||| plus) rest
    else if c = code ' ' then decodeFlags (flags ||| space) rest
    else if c = code '#' then decodeFlags (flags ||| special) rest
    else if c = code '0' then decodeFlags (flags ||| zeropad) rest
    else (flags, c :: rest)

/-- `format_decode` from the field width on. -/
def decodeWidth (spec : PrintfSpec) (fmt : List UInt8) : PrintfSpec × List UInt8 :=
  let spec := { spec with fieldWidth := -1 }
  if isDigit (fmt.headD 0) then
    decodePrecision { spec with fieldWidth := (skipAtoi 0 fmt).1.toInt16 } (skipAtoi 0 fmt).2
  else if fmt.headD 0 = code '*' then ({ spec with type := .width }, fmt.tail)
  else decodePrecision spec fmt

/-- The part of a format up to its next conversion. -/
def plainRest (fmt : List UInt8) : List UInt8 := fmt.dropWhile fun c => c ≠ 0 ∧ c ≠ code '%'

/-- `format_decode`: the conversion, and what is left of the format. -/
def formatDecode (spec : PrintfSpec) (fmt : List UInt8) : PrintfSpec × List UInt8 :=
  if spec.type = .width then
    let spec :=
      if spec.fieldWidth < 0 then
        { spec with fieldWidth := -spec.fieldWidth, flags := spec.flags ||| left }
      else spec
    decodePrecision { spec with type := .none } fmt
  else if spec.type = .precision then
    let spec := if spec.precision < 0 then { spec with precision := 0 } else spec
    decodeQualifier { spec with type := .none } fmt
  else
    let rest := plainRest fmt
    if rest.length ≠ fmt.length ∨ rest.headD 0 = 0 then ({ spec with type := .none }, rest)
    else
      let flags := decodeFlags 0 fmt.tail
      decodeWidth { spec with type := .none, flags := flags.1 } flags.2

/-- The number that bytes make, least significant first. -/
def fromBytes : List UInt8 → ℕ
  | [] => 0
  | byte :: bytes => byte.toNat + 256 * fromBytes bytes

/-- `va_arg`: the next `size` bytes, none where they cannot be read. -/
def vaArg (size : ℕ) (args : List UInt8) : Option (UInt64 × List UInt8) :=
  if size ≤ args.length then some (UInt64.ofNat (fromBytes (args.take size)), args.drop size)
  else none

/-- `sizeof(int)`. -/
def sizeofInt : ℕ := 4

/-- The size of a pointer and of a `long`. -/
def sizeofLong : ℕ := 8

/-- An argument of type `int`. -/
def toInt (arg : UInt64) : Int32 := arg.toUInt32.toInt32

/-- The size of an integer argument. -/
def argSize : FormatType → ℕ
  | .longLong | .ulong | .long | .sizeT | .ptrdiff => sizeofLong
  | _ => sizeofInt

/-- The value of an integer argument. -/
def argValue (type : FormatType) (arg : UInt64) : UInt64 :=
  match type with
  | .ubyte => arg.toUInt8.toUInt64
  | .byte => arg.toUInt8.toInt8.toInt64.toUInt64
  | .ushort => arg.toUInt16.toUInt64
  | .short => arg.toUInt16.toInt16.toInt64.toUInt64
  | .int => (toInt arg).toInt64.toUInt64
  | .uint => arg.toUInt32.toUInt64
  | _ => arg

/-- Store `n` bytes of a value, least significant first. -/
def storeBytes (memory : Memory) (addr n value : ℕ) : Option Memory :=
  if ∀ i < n, (memory (addr + i)).isSome then
    some fun a =>
      if addr ≤ a ∧ a < addr + n then some (UInt8.ofNat (value >>> (8 * (a - addr)))) else memory a
  else none

/-- The size of what `%n` points to. -/
def countSize (qualifier : UInt8) : ℕ :=
  if qualifier = code 'l' ∨ toLower qualifier = code 'z' then 8 else 4

/-- The locals of the loop of `vsnprintf` other than `str`, and the memory. -/
structure Cursor where
  /-- `spec`. -/
  spec : PrintfSpec
  /-- What is left at `fmt`. -/
  fmt : List UInt8
  /-- The bytes from `args` on. -/
  args : List UInt8
  /-- What the arguments point to. -/
  memory : Memory

/-- The case of `FORMAT_TYPE_CHAR`: the width that is left. -/
def formatChar (spec : PrintfSpec) (c : UInt8) : Out Int16 := do
  let width ← padLeading spec (padDown (code ' ') 1 spec.fieldWidth)
  put c
  padDown (code ' ') 1 width

/-- The switch of `vsnprintf`, after `plain` was read and with the cursor behind it. -/
def formatToken (plain : List UInt8) (st : Cursor) : Out Cursor :=
  match st.spec.type with
  | .none => do
    copyBlock plain
    pure st
  | .width => do
    let arg ← fetch (vaArg sizeofInt st.args)
    pure { st with spec := { st.spec with fieldWidth := (toInt arg.1).toInt16 }, args := arg.2 }
  | .precision => do
    let arg ← fetch (vaArg sizeofInt st.args)
    pure { st with spec := { st.spec with precision := (toInt arg.1).toInt16 }, args := arg.2 }
  | .char => do
    let arg ← fetch (vaArg sizeofInt st.args)
    let width ← formatChar st.spec arg.1.toUInt8
    pure { st with spec := { st.spec with fieldWidth := width }, args := arg.2 }
  | .str => do
    let arg ← fetch (vaArg sizeofLong st.args)
    string st.memory arg.1 st.spec
    pure { st with args := arg.2 }
  | .ptr => do
    let arg ← fetch (vaArg sizeofLong st.args)
    pointer st.memory st.fmt.tail arg.1 st.spec
    pure { st with fmt := st.fmt.dropWhile isAlnum, args := arg.2 }
  | .percentChar => do
    put (code '%')
    pure st
  | .invalid => do
    put (code '%')
    pure st
  | .nrchars => do
    let arg ← fetch (vaArg sizeofLong st.args)
    let count ← position
    let memory ← fetch (storeBytes st.memory arg.1.toNat (countSize st.spec.qualifier) count)
    pure { st with args := arg.2, memory := memory }
  | type => do
    let arg ← fetch (vaArg (argSize type) st.args)
    number (argValue type arg.1) st.spec
    pure { st with args := arg.2 }

/-- One round of the loop of `vsnprintf`. The number of bytes read is an `int`; behind its range
`fmt` leaves the format. -/
def formatStep (st : Cursor) : Out Cursor :=
  let next := formatDecode st.spec st.fmt
  let read := st.fmt.length - next.2.length
  if intMax < read then fetch none
  else formatToken (st.fmt.take read) { st with spec := next.1, fmt := next.2 }

/-- The loop of `vsnprintf`, with fuel: the memory at its end. -/
def formatLoop (st : Cursor) : ℕ → Out Memory
  | 0 => fetch none
  | fuel + 1 =>
    if st.fmt.headD 0 = 0 then pure st.memory
    else do
      let next ← formatStep st
      formatLoop next fuel

/-- More rounds than the loop can make. -/
def rounds (fmt : List UInt8) : ℕ := 2 * fmt.length + 2

/-- The value of a call, the buffer, and what the arguments point to after it. -/
structure Result where
  /-- The returned value. -/
  value : Int32
  /-- The memory from the buffer on, by offset. -/
  buffer : ℕ → UInt8
  /-- What the arguments point to. -/
  memory : Memory

/-- `vsnprintf`: `buffer` is the memory from the address `buf` on. -/
def vsnprintf (memory : Memory) (fmt : List UInt8) (args : List UInt8) (buf : UInt64)
    (buffer : ℕ → UInt8) (size : UInt64) : Option Result :=
  if size.toUInt32.toInt32 < 0 then some ⟨0, buffer, memory⟩
  else
    let last := buf + size
    let last' := if last < buf then -1 else last
    let size' := if last < buf then last' - buf else size
    let room := (last' - buf).toNat
    (formatLoop ⟨.zero, fmt, args, memory⟩ (rounds fmt) ⟨buffer, 0, room⟩).map fun run =>
      let str := run.2.pos
      let stored :=
        if 0 < size' then Function.update run.2.mem (if str < room then str else room - 1) 0
        else run.2.mem
      ⟨Int32.ofNat str, stored, run.1⟩

/-- `vscnprintf`. -/
def vscnprintf (memory : Memory) (fmt : List UInt8) (args : List UInt8) (buf : UInt64)
    (buffer : ℕ → UInt8) (size : UInt64) : Option Result :=
  (vsnprintf memory fmt args buf buffer size).map fun r =>
    if r.value.toInt64.toUInt64 < size then r
    else if size ≠ 0 then { r with value := (size - 1).toUInt32.toInt32 }
    else { r with value := 0 }

/-- `scnprintf`: its `va_start` takes the address behind its parameter `fmt`; `frame` are the bytes
from there on. -/
def scnprintf (memory : Memory) (fmt : List UInt8) (frame : List UInt8) (buf : UInt64)
    (buffer : ℕ → UInt8) (size : UInt64) : Option Result :=
  vscnprintf memory fmt frame buf buffer size

end BiscuitOS.VsprintfModel
