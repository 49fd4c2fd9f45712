import BiscuitOS.VsprintfContract
import BiscuitOS.VsprintfNumber
import BiscuitOS.MachineWord

/-!
# A bitmap as text

`bitmap_scnprintf` prints a bitmap in hexadecimal chunks of 32 bits. It reads
the bitmap through `unsigned long`, 64 bits wide, at an index that counts words
of 32 bits, and makes the mask of a chunk by a shift that has no value for a
chunk of 32 bits. The arguments of `scnprintf` are passed in registers, and its
`va_start` looks for them behind the address of its parameter `fmt`.
-/

namespace BiscuitOS.BitmapText

open MachineWord TruncatingSink VsprintfModel VsprintfContract VsprintfNumber

/-- `"%s%0*lx"`. -/
def chunkFormat : List UInt8 := [37, 115, 37, 48, 42, 108, 120]

/-- `maskp[word]`, none where it reaches out of the bitmap. -/
def maskAt (words : List (BitVec 32)) (word : ℕ) : Option (BitVec 64) :=
  words[2 * word]?.bind fun low => words[2 * word + 1]?.map fun high =>
    low.setWidth 64 ||| (high.setWidth 64 : BitVec 64) <<< 32

/-- `(1U << chunksz) - 1`; a shift by the width has no value. -/
def chunkMask (chunksz : ℕ) : Option (BitVec 64) :=
  if chunksz < 32 then some ((1#32 <<< chunksz - 1#32).setWidth 64) else none

/-- What does not change in a call: the memory of the string literals, what the frames of `scnprintf`
hold, the addresses of `""` and `","`, the buffer's address and its size, and the bitmap. -/
structure Call where
  /-- The memory of the literals. -/
  memory : Memory
  /-- The bytes behind the parameter `fmt` of `scnprintf`, by the three arguments that follow it. -/
  frame : UInt64 → UInt32 → UInt64 → List UInt8
  /-- The address of `""`. -/
  empty : UInt64
  /-- The address of `","`. -/
  comma : UInt64
  /-- `buf`. -/
  buf : UInt64
  /-- `buflen`. -/
  buflen : UInt32
  /-- The words of the bitmap. -/
  words : List (BitVec 32)

/-- The loop of `bitmap_scnprintf`, with fuel: `len` and the buffer at its end. -/
def chunkLoop (c : Call) (i : ℤ) (chunksz : ℕ) (sep : UInt64) (len : Int32) (buffer : ℕ → UInt8) :
    ℕ → Option (Int32 × (ℕ → UInt8))
  | 0 => none
  | fuel + 1 =>
    if i < 0 then some (len, buffer)
    else
      (chunkMask chunksz).bind fun mask =>
      (maskAt c.words (i.toNat / 32)).bind fun w =>
        let val := w >>> (i.toNat % 32) &&& mask
        let skip := len.toInt64.toUInt64
        (scnprintf c.memory chunkFormat
          (c.frame sep (UInt32.ofNat ((chunksz + 3) / 4)) (UInt64.ofBitVec val)) (c.buf + skip)
          (fun j => buffer (skip.toNat + j)) (c.buflen - len.toUInt32).toUInt64).bind fun r =>
          chunkLoop c (toSigned 32 (i - 32)) 32 c.comma (len + r.value)
            (fun j => if j < skip.toNat then buffer j else r.buffer (j - skip.toNat)) fuel

/-- `bitmap_scnprintf`, with fuel. -/
def bitmapScnprintf (c : Call) (buffer : ℕ → UInt8) (nmaskbits fuel : ℕ) :
    Option (Int32 × (ℕ → UInt8)) :=
  let chunksz := if nmaskbits % 32 = 0 then 32 else nmaskbits % 32
  let i := toSigned 32 (toSigned 32 ((nmaskbits + 31) / 32 * 32) - 32)
  chunkLoop c i chunksz c.empty 0 buffer fuel

/-- The lowest hexadecimal digits of a number, least significant first. -/
def fixedDigits : ℕ → ℕ → List ℕ
  | 0, _ => []
  | k + 1, n => n % 16 :: fixedDigits k (n / 16)

/-- Chunk `c` of a bitmap, with its number of bits. -/
def chunkText (words : List (BitVec 32)) (c bits : ℕ) : List UInt8 :=
  ((fixedDigits ((bits + 3) / 4) ((words.getD c 0).toNat % 2 ^ bits)).map (digitChar true)).reverse

/-- The chunks below chunk `c`, each behind a comma. -/
def lowerText (words : List (BitVec 32)) : ℕ → List UInt8
  | 0 => []
  | c + 1 => code ',' :: chunkText words c 32 ++ lowerText words c

/-- The bits of a bitmap in hexadecimal chunks, the most significant one first. -/
def bitmapText (words : List (BitVec 32)) (nmaskbits : ℕ) : List UInt8 :=
  if nmaskbits = 0 then []
  else chunkText words ((nmaskbits - 1) / 32) (if nmaskbits % 32 = 0 then 32 else nmaskbits % 32) ++
    lowerText words ((nmaskbits - 1) / 32)

/-- The result of a call is the text, as far as the buffer goes. -/
structure Renders (c : Call) (buffer : ℕ → UInt8) (nmaskbits : ℕ) (r : Int32 × (ℕ → UInt8)) :
    Prop where
  value : r.1.toInt = min (bitmapText c.words nmaskbits).length (c.buflen.toNat - 1)
  front : ∀ i (h : i < (bitmapText c.words nmaskbits).length), i < c.buflen.toNat - 1 →
    r.2 i = (bitmapText c.words nmaskbits)[i]
  outside : ∀ i, c.buflen.toNat ≤ i → r.2 i = buffer i

/-- The call has a result and renders the bitmap. -/
def Rendered (c : Call) (buffer : ℕ → UInt8) (nmaskbits : ℕ) : Prop :=
  ∃ fuel r, bitmapScnprintf c buffer nmaskbits fuel = some r ∧ Renders c buffer nmaskbits r

/-- The bytes of a number, least significant first. -/
def toBytes : ℕ → ℕ → List UInt8
  | 0, _ => []
  | k + 1, n => UInt8.ofNat n :: toBytes k (n / 256)

/-- The three arguments where `va_start` looks for them. -/
def argBytes (sep : UInt64) (digits : UInt32) (val : UInt64) : List UInt8 :=
  toBytes sizeofLong sep.toNat ++ (toBytes sizeofInt digits.toNat ++ toBytes sizeofLong val.toNat)

/-- `scnprintf` finds its arguments where it looks for them. -/
def SeesArguments (c : Call) : Prop :=
  ∀ sep digits val, ∃ behind, c.frame sep digits val = argBytes sep digits val ++ behind

/-- The literal `""` is where the compiler puts it, outside the first page; the buffer ends within
the address space; the bitmap holds the bits. -/
structure Wellformed (c : Call) (nmaskbits : ℕ) : Prop where
  frame : ∀ sep digits val, (argBytes sep digits val).length ≤ (c.frame sep digits val).length
  empty : 4096 ≤ c.empty.toNat ∧ c.memory c.empty.toNat = some 0
  buf : c.buf.toNat + c.buflen.toNat < 2 ^ 64
  bits : nmaskbits ≤ 32 * c.words.length
  int : nmaskbits < 2 ^ 31

variable {c : Call} {nmaskbits : ℕ} {buffer : ℕ → UInt8}

/-- Zero has only zeros. -/
theorem fixedDigits_zero (k : ℕ) : fixedDigits k 0 = List.replicate k 0 := by
  induction k with
  | zero => rfl
  | succ k ih => rw [fixedDigits, Nat.zero_mod, Nat.zero_div, ih, List.replicate_succ]

/-- Each of the digits is a digit. -/
theorem fixedDigits_lt (k : ℕ) : ∀ {n d : ℕ}, d ∈ fixedDigits k n → d < 16 := by
  induction k with
  | zero => exact fun h => absurd h List.not_mem_nil
  | succ k ih =>
    intro n d h
    rcases List.mem_cons.mp h with rfl | h
    · exact Nat.mod_lt _ (by decide)
    · exact ih h

/-- The digits of a number, filled up with zeros. -/
theorem baseDigits_filled (k : ℕ) : ∀ {n : ℕ}, n < 16 ^ (k + 1) →
    (baseDigits 16 n).length ≤ k + 1 ∧
      baseDigits 16 n ++ List.replicate (k + 1 - (baseDigits 16 n).length) 0 =
        fixedDigits (k + 1) n := by
  induction k with
  | zero =>
    intro n h
    have hdiv : n / 16 = 0 := by omega
    rw [baseDigits_step (by decide), if_pos hdiv]
    exact ⟨le_rfl, rfl⟩
  | succ k ih =>
    intro n h
    have hdiv : n / 16 < 16 ^ (k + 1) := by
      rw [pow_succ'] at h
      exact Nat.div_lt_of_lt_mul h
    obtain ⟨hlen, hfill⟩ := ih hdiv
    rw [baseDigits_step (by decide), fixedDigits]
    by_cases hz : n / 16 = 0
    · rw [if_pos hz, hz, fixedDigits_zero]
      exact ⟨by rw [List.length_singleton]; omega, rfl⟩
    · rw [if_neg hz, List.length_cons, Nat.add_sub_add_right, List.cons_append, hfill]
      exact ⟨by omega, rfl⟩

/-- The text of a chunk has its number of digits. -/
theorem chunkText_length (words : List (BitVec 32)) (c bits : ℕ) :
    (chunkText words c bits).length = (bits + 3) / 4 := by
  have hlen : ∀ k n, (fixedDigits k n).length = k := by
    intro k
    induction k with
    | zero => exact fun _ => rfl
    | succ k ih => exact fun n => by rw [fixedDigits, List.length_cons, ih]
  rw [chunkText, List.length_reverse, List.length_map, hlen]

/-- The spec of the number in the format. -/
def chunkSpec (digits : ℕ) : PrintfSpec := ⟨.ulong, zeropad ||| small, 16, 108, Int16.ofNat digits, -1⟩

/-- Numbers have zeros in front and digits in lower case, and neither sign nor prefix. -/
theorem chunkSpec_flags (digits : ℕ) : Has (chunkSpec digits) zeropad ∧
    Has (chunkSpec digits) small ∧ ¬ Has (chunkSpec digits) sign ∧
      ¬ Has (chunkSpec digits) left ∧ ¬ Has (chunkSpec digits) special := by
  have hflags : (chunkSpec digits).flags = zeropad ||| small := rfl
  simp only [Has, hflags]
  decide

/-- A width that fits. -/
theorem chunkSpec_width {k : ℕ} (hk : k < 8) :
    (chunkSpec (k + 1)).fieldWidth.toInt = (k + 1 : ℕ) := by
  have hall : ∀ k < 8, (Int16.ofNat (k + 1)).toInt = (k + 1 : ℕ) := by decide
  exact hall k hk

/-- There is nothing in front of the digits. -/
theorem chunk_front (val : UInt64) (digits : ℕ) : ¬ Negative val (chunkSpec digits) ∧
    signText val (chunkSpec digits) = [] ∧ (signOf val (chunkSpec digits)).1 = [] ∧
      prefixText (chunkSpec digits) = [] := by
  obtain ⟨-, -, hsigned, -, hspecial⟩ := chunkSpec_flags digits
  have hneg : ¬ Negative val (chunkSpec digits) := fun h => hsigned h.1
  have hflag : ¬ (chunkSpec digits).flags &&& sign ≠ 0 := hsigned
  refine ⟨hneg, ?_, ?_, ?_⟩
  · rw [signText, if_neg hneg, if_neg fun h => hsigned h.1, if_neg fun h => hsigned h.1]
  · rw [signOf, if_neg hflag]
  · rw [prefixText, if_pos (Or.inl hspecial)]

/-- The digits of a number. -/
theorem digitChars_chunk (val : UInt64) (digits : ℕ) :
    digitChars val (chunkSpec digits) = (baseDigits 16 val.toNat).map (digitChar true) := by
  have hlower : decide (Has (chunkSpec digits) small) = true :=
    decide_eq_true (chunkSpec_flags digits).2.1
  have hmag : magnitude val (chunkSpec digits) = val.toNat := if_neg (chunk_front val digits).1
  have hbase : (chunkSpec digits).base.toNat = 16 := rfl
  rw [digitChars, hlower, hmag, hbase]

/-- The number of a chunk is rendered as its fixed digits. -/
theorem rendering_chunk {val : UInt64} {k : ℕ} (hk : k < 8) (hval : val.toNat < 16 ^ (k + 1)) :
    rendering val (chunkSpec (k + 1)) =
      ((fixedDigits (k + 1) val.toNat).map (digitChar true)).reverse := by
  obtain ⟨-, hfill⟩ := baseDigits_filled k hval
  obtain ⟨hzero, -, -, hleft, -⟩ := chunkSpec_flags (k + 1)
  obtain ⟨-, hsign, -, hpfx⟩ := chunk_front val (k + 1)
  have hdigits : digitText val (chunkSpec (k + 1)) =
      ((baseDigits 16 val.toNat).map (digitChar true)).reverse := by
    have hprec : (chunkSpec (k + 1)).precision.toInt.toNat = 0 := rfl
    have hchars : digitText val (chunkSpec (k + 1)) = List.replicate
        ((chunkSpec (k + 1)).precision.toInt.toNat - (digitChars val (chunkSpec (k + 1))).length)
        (code '0') ++ (digitChars val (chunkSpec (k + 1))).reverse := rfl
    rw [hchars, hprec, Nat.zero_sub, List.replicate_zero, List.nil_append, digitChars_chunk]
  have hchar : code '0' = digitChar true 0 := rfl
  rw [rendering, if_neg hleft, if_pos hzero, hsign, hpfx, hdigits, chunkSpec_width hk,
    Int.toNat_natCast]
  simp only [List.nil_append, List.length_reverse, List.length_map]
  rw [← hfill, List.map_append, List.reverse_append, List.map_replicate, List.reverse_replicate,
    hchar]

/-- The number of a chunk is put as its fixed digits. -/
theorem puts_chunk {val : UInt64} {k : ℕ} (hk : k < 8) (hval : val.toNat < 16 ^ (k + 1)) :
    Puts (number val (chunkSpec (k + 1))) ()
      ((fixedDigits (k + 1) val.toNat).map (digitChar true)).reverse := by
  obtain ⟨-, hsign, hsigned, hpfx⟩ := chunk_front val (k + 1)
  obtain ⟨hlen, -⟩ := baseDigits_filled k hval
  have hwidth := chunkSpec_width hk
  have hconv : Conversion val (chunkSpec (k + 1)) :=
    ⟨Or.inr (Or.inr rfl), by omega, fun h : (16 : UInt8) = 10 => absurd h (by decide)⟩
  have hcount : digitCount val (chunkSpec (k + 1)) = (baseDigits 16 val.toNat).length := by
    rw [digitCount, digitChars_chunk, List.length_map]
  have hprec : (chunkSpec (k + 1)).precision.toInt.toNat = 0 := rfl
  have hloops : loops (chunkSpec (k + 1)) ≤ 3 := by
    rw [loops]
    split_ifs <;> omega
  rw [← rendering_chunk hk hval, same_sign_iff hconv (hsign.trans hsigned.symm), budget, hsigned,
    hpfx, hwidth, precisionOf, hcount, hprec, List.length_nil]
  omega

/-- A string that is empty has no length. -/
theorem strnlen_empty {f : ℕ → Option UInt8} (h : f 0 = some 0) (count : ℕ) :
    strnlen f count = some 0 := by
  cases count with
  | zero => rfl
  | succ count => rw [strnlen, h, Option.bind_some, if_pos rfl]

/-- The spec of the string in the format. -/
def sepSpec : PrintfSpec := ⟨.str, 0, 10, 255, -1, -1⟩

/-- An empty string puts nothing. -/
theorem puts_empty {m : Memory} {s : UInt64} (hs : 4096 ≤ s.toNat) (hm : m s.toNat = some 0) :
    Puts (VsprintfModel.string m s sepSpec) () [] := by
  have hpage : ¬ s.toNat < pageSize := not_lt.mpr hs
  have hlen : (Int32.ofNat 0).toInt = 0 := rfl
  have hpad : ∀ w : Int16, w < 0 → Puts (padAbove 0 w) (w - 1) [] := by
    intro w hw
    have hneg : ¬ (0 : ℤ) < w.toInt := by
      have := Int16.lt_iff_toInt_lt.mp hw
      exact not_lt.mpr this.le
    rw [padAbove, if_neg hneg]
    exact puts_pure _
  rw [VsprintfModel.string, if_neg hpage, stringBytes, strnlen_empty hm]
  refine (puts_fetch 0).bind ?_
  dsimp only
  rw [hlen]
  refine (hpad (-1) (by decide)).bind ?_
  refine (puts_pure ()).bind ?_
  exact (hpad (-1 - 1) (by decide)).bind (puts_pure ())

/-- The spec of the star in the format, with a width. -/
def starSpec (width : Int16) : PrintfSpec := ⟨.width, zeropad, 10, 255, width, -1⟩

/-- The conversions of the format, one after the other. -/
theorem decode_chunk : formatDecode .zero chunkFormat = (sepSpec, [37, 48, 42, 108, 120]) ∧
    formatDecode sepSpec [37, 48, 42, 108, 120] = (starSpec (-1), [108, 120]) ∧
    ∀ k < 8, formatDecode (starSpec (Int16.ofNat (k + 1))) [108, 120] =
      (chunkSpec (k + 1), []) := by
  decide

/-- A round of the loop puts what its conversion puts. -/
theorem puts_round {spec next : PrintfSpec} {fmt rest : List UInt8} {args : List UInt8}
    {m m' : Memory} {st : Cursor} {xs ys : List UInt8} {fuel : ℕ}
    (hdec : formatDecode spec fmt = (next, rest)) (hfmt : fmt.headD 0 ≠ 0)
    (hread : fmt.length ≤ intMax)
    (htoken : ∀ plain, Puts (formatToken plain ⟨next, rest, args, m⟩) st xs)
    (hrest : Puts (formatLoop st fuel) m' ys) :
    Puts (formatLoop ⟨spec, fmt, args, m⟩ (fuel + 1)) m' (xs ++ ys) := by
  have hstep : Puts (formatStep ⟨spec, fmt, args, m⟩) st xs := by
    have hle : ¬ intMax < fmt.length - rest.length := by omega
    rw [formatStep, hdec, if_neg hle]
    exact htoken _
  rw [formatLoop, if_neg hfmt]
  exact hstep.bind hrest

/-- The number of bytes. -/
theorem toBytes_length (k : ℕ) : ∀ n, (toBytes k n).length = k := by
  induction k with
  | zero => exact fun _ => rfl
  | succ k ih => exact fun n => by rw [toBytes, List.length_cons, ih]

/-- The bytes of a number that fits make the number. -/
theorem fromBytes_toBytes (k : ℕ) : ∀ {n : ℕ}, n < 256 ^ k → fromBytes (toBytes k n) = n := by
  induction k with
  | zero =>
    intro n h
    rw [pow_zero] at h
    rw [toBytes, fromBytes]
    omega
  | succ k ih =>
    intro n h
    have hdiv : n / 256 < 256 ^ k := by
      rw [pow_succ'] at h
      exact Nat.div_lt_of_lt_mul h
    have hbyte : (UInt8.ofNat n).toNat = n % 256 := rfl
    rw [toBytes, fromBytes, ih hdiv, hbyte]
    exact Nat.mod_add_div n 256

/-- An argument at the front is taken. -/
theorem vaArg_toBytes {size n : ℕ} (h : n < 256 ^ size) (rest : List UInt8) :
    vaArg size (toBytes size n ++ rest) = some (UInt64.ofNat n, rest) := by
  have hlen := toBytes_length size n
  rw [vaArg, if_pos (by rw [List.length_append]; omega), List.take_left' hlen, List.drop_left' hlen,
    fromBytes_toBytes size h]

/-- An argument of 64 bits. -/
theorem vaArg_long (arg : UInt64) (rest : List UInt8) :
    vaArg sizeofLong (toBytes sizeofLong arg.toNat ++ rest) = some (arg, rest) := by
  have hfits : arg.toNat < 256 ^ sizeofLong := arg.toNat_lt
  rw [vaArg_toBytes hfits, UInt64.ofNat_toNat]

/-- A star takes its width from the arguments. -/
theorem puts_star (m : Memory) (plain fmt : List UInt8) (digits : UInt32) (args : List UInt8) :
    Puts (formatToken plain ⟨starSpec (-1), fmt, toBytes sizeofInt digits.toNat ++ args, m⟩)
      ⟨starSpec digits.toInt32.toInt16, fmt, args, m⟩ [] := by
  have hword : toInt (UInt64.ofNat digits.toNat) = digits.toInt32 := by
    rw [toInt, UInt64.ofNat_uInt32ToNat, UInt32.toUInt32_toUInt64]
  have htoken : formatToken plain ⟨starSpec (-1), fmt, toBytes sizeofInt digits.toNat ++ args, m⟩ =
      fetch (vaArg sizeofInt (toBytes sizeofInt digits.toNat ++ args)) >>= fun arg => pure
        ⟨starSpec (toInt arg.1).toInt16, fmt, arg.2, m⟩ := rfl
  have hfits : digits.toNat < 256 ^ sizeofInt := digits.toNat_lt
  rw [htoken, vaArg_toBytes hfits, ← hword]
  exact (puts_fetch _).bind (puts_pure _)

/-- A string is taken from the arguments. -/
theorem puts_stringToken {m : Memory} {plain fmt : List UInt8} {s : UInt64} {args : List UInt8}
    (hs : 4096 ≤ s.toNat) (hm : m s.toNat = some 0) :
    Puts (formatToken plain ⟨sepSpec, fmt, toBytes sizeofLong s.toNat ++ args, m⟩)
      ⟨sepSpec, fmt, args, m⟩ [] := by
  have htoken : formatToken plain ⟨sepSpec, fmt, toBytes sizeofLong s.toNat ++ args, m⟩ =
      fetch (vaArg sizeofLong (toBytes sizeofLong s.toNat ++ args)) >>= fun arg =>
        VsprintfModel.string m arg.1 sepSpec >>= fun _ => pure ⟨sepSpec, fmt, arg.2, m⟩ := rfl
  rw [htoken, vaArg_long]
  exact (puts_fetch _).bind ((puts_empty hs hm).bind (puts_pure _))

/-- A number is taken from the arguments. -/
theorem puts_numberToken {m : Memory} {plain fmt text : List UInt8} {arg : UInt64}
    {args : List UInt8} {digits : ℕ} (h : Puts (number arg (chunkSpec digits)) () text) :
    Puts (formatToken plain ⟨chunkSpec digits, fmt, toBytes sizeofLong arg.toNat ++ args, m⟩)
      ⟨chunkSpec digits, fmt, args, m⟩ text := by
  have htoken : formatToken plain
      ⟨chunkSpec digits, fmt, toBytes sizeofLong arg.toNat ++ args, m⟩ =
      fetch (vaArg sizeofLong (toBytes sizeofLong arg.toNat ++ args)) >>= fun arg =>
        number arg.1 (chunkSpec digits) >>= fun _ => pure ⟨chunkSpec digits, fmt, arg.2, m⟩ := rfl
  have hnumber := h.bind
    (f := fun _ => pure (⟨chunkSpec digits, fmt, args, m⟩ : Cursor)) (puts_pure _)
  rw [List.append_nil] at hnumber
  rw [htoken, vaArg_long]
  exact (puts_fetch _).bind hnumber

/-- The format of a chunk puts its fixed digits behind an empty string. -/
theorem puts_format {m : Memory} {s val : UInt64} {k : ℕ} (hs : 4096 ≤ s.toNat)
    (hm : m s.toNat = some 0) (hk : k < 8) (hval : val.toNat < 16 ^ (k + 1)) :
    Puts (formatLoop ⟨.zero, chunkFormat, argBytes s (UInt32.ofNat (k + 1)) val, m⟩
      (VsprintfModel.rounds chunkFormat)) m
      ((fixedDigits (k + 1) val.toNat).map (digitChar true)).reverse := by
  obtain ⟨hfirst, hsecond, hthird⟩ := decode_chunk
  have hwidth : (UInt32.ofNat (k + 1)).toInt32.toInt16 = Int16.ofNat (k + 1) := by
    have hall : ∀ k < 8, (UInt32.ofNat (k + 1)).toInt32.toInt16 = Int16.ofNat (k + 1) := by decide
    exact hall k hk
  have hstar : ∀ plain, Puts (formatToken plain ⟨starSpec (-1), [108, 120],
      toBytes sizeofInt (UInt32.ofNat (k + 1)).toNat ++ toBytes sizeofLong val.toNat, m⟩)
      ⟨starSpec (Int16.ofNat (k + 1)), [108, 120], toBytes sizeofLong val.toNat, m⟩ [] := by
    rw [← hwidth]
    exact fun _ => puts_star _ _ _ _ _
  have hnumber : ∀ plain, Puts (formatToken plain
      ⟨chunkSpec (k + 1), [], toBytes sizeofLong val.toNat, m⟩) ⟨chunkSpec (k + 1), [], [], m⟩
      ((fixedDigits (k + 1) val.toNat).map (digitChar true)).reverse := by
    intro plain
    have htoken := @puts_numberToken m plain [] _ _ [] _ (puts_chunk hk hval)
    rwa [List.append_nil] at htoken
  have hdone : Puts (formatLoop ⟨chunkSpec (k + 1), [], [], m⟩ 13) m [] := puts_pure m
  have hlast : Puts (formatLoop
      ⟨starSpec (Int16.ofNat (k + 1)), [108, 120], toBytes sizeofLong val.toNat, m⟩ 14) m
      (((fixedDigits (k + 1) val.toNat).map (digitChar true)).reverse ++ []) :=
    puts_round (hthird k hk) (by decide) (by decide) hnumber hdone
  rw [List.append_nil] at hlast
  exact puts_round hfirst (by decide) (by decide) (fun _ => puts_stringToken hs hm)
    (puts_round hsecond (by decide) (by decide) hstar hlast)

/-- A call for one chunk that sees its arguments stores the digits as far as there is room. -/
theorem scnprintf_chunk {m : Memory} {s val : UInt64} {k : ℕ} (hs : 4096 ≤ s.toNat)
    (hm : m s.toNat = some 0) (hk : k < 8) (hval : val.toNat < 16 ^ (k + 1)) (behind : List UInt8)
    (buf size : UInt64) (buffer : ℕ → UInt8) (hsize : size.toNat ≤ intMax)
    (hwrap : buf.toNat + size.toNat < 2 ^ 64)
    {text : List UInt8} (htext : text = ((fixedDigits (k + 1) val.toNat).map (digitChar true)).reverse)
    (hlen : text.length = k + 1) :
    ∃ new, scnprintf m chunkFormat (argBytes s (UInt32.ofNat (k + 1)) val ++ behind) buf buffer
        size = some ⟨Int32.ofNat (min text.length (size.toNat - 1)), new, m⟩ ∧
      Holds text size.toNat buffer new := by
  have hputs := puts_format hs hm hk hval
  rw [← htext] at hputs
  have hmax : intMax = 2147483647 := rfl
  have htrunc : Truncates m chunkFormat (argBytes s (UInt32.ofNat (k + 1)) val) text :=
    truncates_of_stored fun buf buffer size hsize hwrap =>
      vsnprintf_run (o := some (m, text)) hputs.run buffer hsize hwrap
  exact (htrunc.longer behind).vscnprintf (by omega) buf buffer size hsize hwrap

/-- A size that is no `int` is refused. -/
theorem scnprintf_refused (m : Memory) (fmt frame : List UInt8) (buf : UInt64)
    (buffer : ℕ → UInt8) {size : UInt32} (h : intMax < size.toNat) :
    scnprintf m fmt frame buf buffer size.toUInt64 = some ⟨0, buffer, m⟩ := by
  have hmax : intMax = 2147483647 := rfl
  have hneg : size.toUInt64.toUInt32.toInt32 < 0 := by
    rw [UInt32.toUInt32_toUInt64, Int32.lt_iff_toInt_lt]
    have hint : size.toInt32.toInt = Int.bmod size.toNat (2 ^ 32) :=
      BitVec.toInt_eq_toNat_bmod size.toBitVec
    have hbound := size.toNat_lt
    rw [hint, Int.bmod_def]
    split <;> simp only [Int32.toInt_zero] <;> omega
  have hpos : (0 : Int32).toInt64.toUInt64 < size.toUInt64 := by
    rw [UInt64.lt_iff_toNat_lt, UInt32.toNat_toUInt64]
    exact (Nat.zero_le _).trans_lt h
  rw [scnprintf, vscnprintf, vsnprintf, if_pos hneg, Option.map_some, if_pos hpos]

/-- Where the loop starts. -/
theorem start_eq {n : ℕ} (h : n < 2 ^ 31) :
    toSigned 32 (toSigned 32 (((n : ℤ) + 31) / 32 * 32) - 32) = ((n : ℤ) + 31) / 32 * 32 - 32 := by
  rw [toSigned, toSigned, Int.bmod_sub_bmod]
  exact Int.bmod_eq_of_le (by omega) (by omega)

/-- A chunk of 32 bits has no mask. -/
theorem chunkLoop_wide (c : Call) {i : ℤ} (hi : 0 ≤ i) (sep : UInt64) (len : Int32)
    (buffer : ℕ → UInt8) (fuel : ℕ) : chunkLoop c i 32 sep len buffer fuel = none := by
  cases fuel with
  | zero => rfl
  | succ fuel => rw [chunkLoop, if_neg (not_lt.mpr hi), chunkMask, if_neg (by decide),
      Option.bind_none]

/-- Behind the first chunk the next one has no mask. -/
theorem chunkLoop_next (c : Call) {i : ℤ} (hi : 0 ≤ i) (hnext : 0 ≤ toSigned 32 (i - 32))
    (chunksz : ℕ) (sep : UInt64) (len : Int32) (buffer : ℕ → UInt8) (fuel : ℕ) :
    chunkLoop c i chunksz sep len buffer fuel = none := by
  cases fuel with
  | zero => rfl
  | succ fuel =>
    rw [chunkLoop, if_neg (not_lt.mpr hi)]
    refine Option.bind_eq_none_iff.mpr fun mask _ => Option.bind_eq_none_iff.mpr fun w _ =>
      Option.bind_eq_none_iff.mpr fun r _ => ?_
    exact chunkLoop_wide c hnext _ _ _ fuel

/-- From 32 bits on there is no result. -/
theorem bitmapScnprintf_wide (c : Call) (buffer : ℕ → UInt8) {n : ℕ} (hn : 32 ≤ n)
    (h : n < 2 ^ 31) (fuel : ℕ) : bitmapScnprintf c buffer n fuel = none := by
  rw [bitmapScnprintf, start_eq h]
  by_cases hmod : n % 32 = 0
  · rw [if_pos hmod]
    exact chunkLoop_wide c (by omega) _ _ _ fuel
  · have hnext : toSigned 32 (((n : ℤ) + 31) / 32 * 32 - 32 - 32) =
        ((n : ℤ) + 31) / 32 * 32 - 32 - 32 := by
      rw [toSigned]
      exact Int.bmod_eq_of_le (by omega) (by omega)
    exact chunkLoop_next c (by omega) (by omega) _ _ _ _ fuel

/-- The lowest bits of a word, read through 64 bits. -/
theorem masked_toNat (low high : BitVec 32) {n : ℕ} (hn : n < 32) :
    (UInt64.ofBitVec ((low.setWidth 64 ||| (high.setWidth 64 : BitVec 64) <<< 32) >>> 0 &&&
      (1#32 <<< n - 1#32).setWidth 64)).toNat = low.toNat % 2 ^ n := by
  have hpow : 2 ^ n < 2 ^ 32 := Nat.pow_lt_pow_right (by decide) hn
  have hone := Nat.two_pow_pos n
  have hmask : (1#32 <<< n - 1#32).toNat = 2 ^ n - 1 := by
    rw [BitVec.toNat_sub, BitVec.toNat_shiftLeft, Nat.shiftLeft_eq]
    simp only [BitVec.toNat_ofNat]
    omega
  have hlow := low.isLt
  have hzero : high.toNat <<< 32 % 2 ^ n = 0 := by
    rw [Nat.shiftLeft_eq]
    exact Nat.mod_eq_zero_of_dvd ((Nat.pow_dvd_pow 2 hn.le).mul_left _)
  have hhigh : high.toNat <<< 32 < 2 ^ 64 := by
    have hlt := high.isLt
    rw [Nat.shiftLeft_eq]
    omega
  have hval : ∀ b : BitVec 64, (UInt64.ofBitVec b).toNat = b.toNat := fun _ => rfl
  rw [hval, BitVec.toNat_and, BitVec.toNat_ushiftRight, Nat.shiftRight_zero, BitVec.toNat_or,
    BitVec.toNat_shiftLeft, BitVec.toNat_setWidth, BitVec.toNat_setWidth, BitVec.toNat_setWidth,
    hmask, Nat.mod_eq_of_lt (by omega), Nat.mod_eq_of_lt (a := high.toNat) (by have := high.isLt; omega),
    Nat.mod_eq_of_lt hhigh, Nat.mod_eq_of_lt (by omega), Nat.and_two_pow_sub_one_eq_mod,
    Nat.or_mod_two_pow, hzero, Nat.or_zero]

/-- The value of a buffer after the only chunk. -/
def onlyChunk (c : Call) (buffer : ℕ → UInt8) (n : ℕ) : Option (Int32 × (ℕ → UInt8)) :=
  (maskAt c.words 0).bind fun w =>
    (scnprintf c.memory chunkFormat (c.frame c.empty (UInt32.ofNat ((n + 3) / 4))
      (UInt64.ofBitVec (w >>> 0 &&& (1#32 <<< n - 1#32).setWidth 64))) c.buf buffer
      c.buflen.toUInt64).map fun r => (r.value, r.buffer)

/-- Below 32 bits the loop makes one chunk. -/
theorem bitmapScnprintf_small (c : Call) (buffer : ℕ → UInt8) {n : ℕ} (hpos : 0 < n) (hn : n < 32)
    (fuel : ℕ) : bitmapScnprintf c buffer n (fuel + 2) = onlyChunk c buffer n := by
  have hmod : n % 32 = n := Nat.mod_eq_of_lt hn
  have hfirst : ((n : ℤ) + 31) / 32 * 32 - 32 = 0 := by omega
  have hnext : toSigned 32 (0 - 32) = -32 := by decide
  have hskip : (0 : Int32).toInt64.toUInt64 = 0 := rfl
  have hbuffer : (fun j => buffer ((0 : UInt64).toNat + j)) = buffer := by
    funext j
    exact congrArg buffer (Nat.zero_add j)
  have hlen : c.buflen - (0 : Int32).toUInt32 = c.buflen := sub_zero _
  rw [bitmapScnprintf, start_eq (by omega), hmod, if_neg hpos.ne', hfirst, chunkLoop,
    if_neg (by decide), chunkMask, if_pos hn, Option.bind_some, onlyChunk]
  refine congrArg (Option.bind _) (funext fun w => ?_)
  have hcall : ∀ frame : List UInt8, scnprintf c.memory chunkFormat frame
      (c.buf + (0 : Int32).toInt64.toUInt64)
      (fun j => buffer ((0 : Int32).toInt64.toUInt64.toNat + j))
      (c.buflen - (0 : Int32).toUInt32).toUInt64 =
        scnprintf c.memory chunkFormat frame c.buf buffer c.buflen.toUInt64 := by
    intro frame
    rw [hskip, hbuffer, hlen, add_zero]
  dsimp only
  rw [hcall, Option.map_eq_bind]
  refine congrArg (Option.bind _) (funext fun r => ?_)
  rw [hnext, chunkLoop, if_pos (by decide), Int32.zero_add]
  rfl

/-- Below 32 bits every result is the one chunk's. -/
theorem bitmapScnprintf_only {n : ℕ} (hpos : 0 < n) (hn : n < 32) {fuel : ℕ}
    {r : Int32 × (ℕ → UInt8)} (hr : bitmapScnprintf c buffer n fuel = some r) :
    onlyChunk c buffer n = some r := by
  have hfirst : ((n : ℤ) + 31) / 32 * 32 - 32 = 0 := by omega
  obtain hmany | hone : 2 ≤ fuel ∨ fuel ≤ 1 := by omega
  · obtain ⟨k, rfl⟩ := Nat.exists_eq_add_of_le' hmany
    rwa [bitmapScnprintf_small c buffer hpos hn] at hr
  rw [bitmapScnprintf, start_eq (by omega), hfirst] at hr
  cases fuel with
  | zero => rw [chunkLoop] at hr; cases hr
  | succ fuel =>
    have hzero : fuel = 0 := by omega
    rw [chunkLoop, if_neg (by decide), hzero] at hr
    obtain ⟨mask, -, hr⟩ := Option.bind_eq_some_iff.mp hr
    obtain ⟨w, -, hr⟩ := Option.bind_eq_some_iff.mp hr
    obtain ⟨q, -, hr⟩ := Option.bind_eq_some_iff.mp hr
    rw [chunkLoop] at hr
    cases hr

/-- Without a second word the first read reaches out of the bitmap. -/
theorem onlyChunk_short (c : Call) (buffer : ℕ → UInt8) (n : ℕ) (h : c.words.length < 2) :
    onlyChunk c buffer n = none := by
  have hread : maskAt c.words 0 = none := by
    rw [maskAt]
    refine Option.bind_eq_none_iff.mpr fun low _ => ?_
    rw [List.getElem?_eq_none (by omega), Option.map_none]
  rw [onlyChunk, hread, Option.bind_none]

/-- Below 32 bits the text is one chunk. -/
theorem bitmapText_small (words : List (BitVec 32)) {n : ℕ} (hpos : 0 < n) (hn : n < 32) :
    bitmapText words n = chunkText words 0 n := by
  have hmod : n % 32 = n := Nat.mod_eq_of_lt hn
  have hchunk : (n - 1) / 32 = 0 := by omega
  rw [bitmapText, if_neg hpos.ne', hmod, if_neg hpos.ne', hchunk, lowerText, List.append_nil]

/-- With a second word the chunk is rendered, where the size is an `int` and the arguments are seen. -/
theorem onlyChunk_renders {n : ℕ} (hw : Wellformed c n) (hsees : SeesArguments c) (buffer : ℕ → UInt8) (hpos : 0 < n)
    (hn : n < 32) (hwords : 2 ≤ c.words.length) (hlen : c.buflen.toNat ≤ intMax) :
    ∃ r, onlyChunk c buffer n = some r ∧ Renders c buffer n r := by
  have hmax : intMax = 2147483647 := rfl
  have hread : maskAt c.words 0 = some (c.words[0].setWidth 64 |||
      (c.words[1].setWidth 64 : BitVec 64) <<< 32) := by
    rw [maskAt, Nat.mul_zero, List.getElem?_eq_getElem (by omega), Option.bind_some,
      List.getElem?_eq_getElem (by omega), Option.map_some]
  have hval := masked_toNat c.words[0] c.words[1] hn
  have hsize : c.buflen.toUInt64.toNat = c.buflen.toNat := UInt32.toNat_toUInt64 _
  have hdigits : (n + 3) / 4 = (n - 1) / 4 + 1 := by omega
  have hget : c.words.getD 0 0 = c.words[0] := by
    rw [List.getD_eq_getElem?_getD, List.getElem?_eq_getElem (by omega), Option.getD_some]
  have hfits : c.words[0].toNat % 2 ^ n < 16 ^ ((n - 1) / 4 + 1) := by
    have hbase : (16 : ℕ) = 2 ^ 4 := rfl
    rw [hbase, ← pow_mul]
    exact (Nat.mod_lt _ (Nat.two_pow_pos _)).trans_le (Nat.pow_le_pow_right (by decide) (by omega))
  have htext : chunkText c.words 0 n = ((fixedDigits ((n - 1) / 4 + 1) (UInt64.ofBitVec
      ((c.words[0].setWidth 64 ||| (c.words[1].setWidth 64 : BitVec 64) <<< 32) >>> 0 &&&
        (1#32 <<< n - 1#32).setWidth 64)).toNat).map (digitChar true)).reverse := by
    rw [chunkText, hdigits, hget, hval]
  obtain ⟨behind, hframe⟩ := hsees c.empty (UInt32.ofNat ((n - 1) / 4 + 1)) (UInt64.ofBitVec
    ((c.words[0].setWidth 64 ||| (c.words[1].setWidth 64 : BitVec 64) <<< 32) >>> 0 &&&
      (1#32 <<< n - 1#32).setWidth 64))
  obtain ⟨new, hcall, hholds⟩ := scnprintf_chunk hw.empty.1 hw.empty.2 (by omega)
    (by rw [hval]; exact hfits) behind c.buf c.buflen.toUInt64 buffer (by omega)
    (by rw [hsize]; exact hw.buf) htext (by rw [chunkText_length, hdigits])
  rw [hsize] at hcall hholds
  refine ⟨_, by rw [onlyChunk, hread, Option.bind_some, hdigits, hframe, hcall, Option.map_some],
    ?_⟩
  refine ⟨?_, ?_, hholds.outside⟩
  · rw [bitmapText_small c.words hpos hn]
    exact ofNat_toInt ((min_le_right _ _).trans (by omega))
  · rw [bitmapText_small c.words hpos hn]
    exact hholds.front

/-- A size that is no `int` leaves nothing in the buffer. -/
theorem onlyChunk_large {n : ℕ} (hpos : 0 < n) (hn : n < 32) (hlen : intMax < c.buflen.toNat)
    {r : Int32 × (ℕ → UInt8)} (hr : onlyChunk c buffer n = some r) : ¬ Renders c buffer n r := by
  intro hrenders
  have hmax : intMax = 2147483647 := rfl
  have hvalue := hrenders.value
  obtain ⟨w, -, hcall⟩ := Option.bind_eq_some_iff.mp hr
  rw [scnprintf_refused _ _ _ _ _ hlen, Option.map_some] at hcall
  rw [← Option.some.inj hcall, bitmapText_small c.words hpos hn, chunkText_length,
    Int32.toInt_zero] at hvalue
  omega

/-- No bits are rendered as nothing. -/
theorem rendered_zero (c : Call) (buffer : ℕ → UInt8) : Rendered c buffer 0 := by
  refine ⟨1, (0, buffer), ?_, ?_⟩
  · rw [bitmapScnprintf, start_eq (by decide), chunkLoop, if_pos (by decide)]
  · have htext : bitmapText c.words 0 = [] := rfl
    refine ⟨?_, fun i h _ => ?_, fun _ _ => rfl⟩
    · rw [htext, List.length_nil, Int32.toInt_zero]
      omega
    · rw [htext] at h
      exact absurd h (Nat.not_lt_zero i)

/-- A call that sees its arguments renders a bitmap exactly when it has no bit, or fewer than 32 bits
in at least two words and a buffer whose size is an `int`. -/
theorem rendered_seeing (hw : Wellformed c nmaskbits) (hsees : SeesArguments c)
    (buffer : ℕ → UInt8) : Rendered c buffer nmaskbits ↔
      nmaskbits = 0 ∨ (nmaskbits < 32 ∧ 2 ≤ c.words.length ∧ c.buflen.toNat ≤ intMax) := by
  obtain rfl | hpos := Nat.eq_zero_or_pos nmaskbits
  · exact iff_of_true (rendered_zero c buffer) (Or.inl rfl)
  obtain hn | hn := Nat.lt_or_ge nmaskbits 32
  · constructor
    · rintro ⟨fuel, r, hr, hrenders⟩
      have hone := bitmapScnprintf_only hpos hn hr
      refine Or.inr ⟨hn, ?_, ?_⟩
      · by_contra hshort
        rw [onlyChunk_short c buffer nmaskbits (not_le.mp hshort)] at hone
        cases hone
      · by_contra hlarge
        exact onlyChunk_large hpos hn (not_le.mp hlarge) hone hrenders
    · rintro (rfl | ⟨-, hwords, hlen⟩)
      · exact absurd hpos (lt_irrefl 0)
      · obtain ⟨r, hr, hrenders⟩ := onlyChunk_renders hw hsees buffer hpos hn hwords hlen
        exact ⟨2, r, (bitmapScnprintf_small c buffer hpos hn 0).trans hr, hrenders⟩
  · refine iff_of_false ?_ (by omega)
    rintro ⟨fuel, r, hr, -⟩
    rw [bitmapScnprintf_wide c buffer hn hw.int] at hr
    cases hr

/-- A call with the literal at 8192, a buffer of 64 bytes at 65536, and words. -/
def sampleCall (frame : UInt64 → UInt32 → UInt64 → List UInt8) (words : List (BitVec 32)) : Call :=
  ⟨fun a => if a = 8192 then some 0 else none, frame, 8192, 8196, 65536, 64, words⟩

/-- Zeros behind the parameter `fmt`. -/
def zeroFrame (_ : UInt64) (_ : UInt32) (_ : UInt64) : List UInt8 := List.replicate 20 0

/-- The length of the arguments. -/
theorem argBytes_length (sep : UInt64) (digits : UInt32) (val : UInt64) :
    (argBytes sep digits val).length = 20 := by
  rw [argBytes, List.length_append, List.length_append, toBytes_length, toBytes_length,
    toBytes_length]
  rfl

/-- The call is well formed for the bits it has words for. -/
theorem sampleCall_wellformed {frame : UInt64 → UInt32 → UInt64 → List UInt8}
    (hframe : ∀ sep digits val, 20 ≤ (frame sep digits val).length) (words : List (BitVec 32))
    {n : ℕ} (hn : n ≤ 32 * words.length) (hint : n < 2 ^ 31) :
    Wellformed (sampleCall frame words) n :=
  ⟨fun sep digits val => (argBytes_length sep digits val).trans_le (hframe sep digits val),
    ⟨by change 4096 ≤ 8192; decide, rfl⟩, by change 65536 + 64 < 2 ^ 64; decide, hn, hint⟩

/-- Zeros are no pointer to an empty string: the text begins with a parenthesis. -/
theorem zeroFrame_text (words : List (BitVec 32)) {n : ℕ} {r : Int32 × (ℕ → UInt8)}
    (hr : onlyChunk (sampleCall zeroFrame words) (fun _ => 0) n = some r) : r.2 0 = code '(' := by
  obtain ⟨w, -, hcall⟩ := Option.bind_eq_some_iff.mp hr
  obtain ⟨q, hq, rfl⟩ := Option.map_eq_some_iff.mp hcall
  have hrun : (scnprintf (sampleCall zeroFrame []).memory chunkFormat (List.replicate 20 0) 65536
      (fun _ => 0) 64).map (fun q => q.buffer 0) = some (code '(') := by decide +kernel
  have hsame : scnprintf (sampleCall zeroFrame []).memory chunkFormat (List.replicate 20 0) 65536
      (fun _ => 0) 64 = some q := hq
  rw [hsame, Option.map_some] at hrun
  exact Option.some.inj hrun

/-- No character of a chunk's text is a parenthesis. -/
theorem chunkText_digit (words : List (BitVec 32)) (k bits : ℕ) :
    code '(' ∉ chunkText words k bits := by
  intro hmem
  obtain ⟨d, hd, hchar⟩ := List.mem_map.mp (List.mem_reverse.mp hmem)
  have hall : ∀ d < 16, digitChar true d ≠ code '(' := by decide
  exact hall d (fixedDigits_lt _ hd) hchar

/-- With zeros for its arguments no bitmap with bits is rendered. -/
theorem zeroFrame_garbled (words : List (BitVec 32)) {n : ℕ} (hpos : 0 < n) (hint : n < 2 ^ 31) :
    ¬ Rendered (sampleCall zeroFrame words) (fun _ => 0) n := by
  rintro ⟨fuel, r, hr, hrenders⟩
  obtain hn | hn := Nat.lt_or_ge n 32
  · have hfirst := zeroFrame_text words (bitmapScnprintf_only hpos hn hr)
    have hwords : (sampleCall zeroFrame words).words = words := rfl
    have hlen : 0 < (bitmapText words n).length := by
      rw [bitmapText_small words hpos hn, chunkText_length]
      omega
    have hfront := hrenders.front 0 hlen (by change 0 < 64 - 1; decide)
    have hmem : code '(' ∈ bitmapText words n := by
      rw [← hfirst, hfront]
      exact List.getElem_mem hlen
    rw [bitmapText_small words hpos hn] at hmem
    exact chunkText_digit words 0 n hmem
  · rw [bitmapScnprintf_wide _ _ hn hint] at hr
    cases hr

/-- Whatever stands where `scnprintf` looks for its arguments, a bitmap is rendered exactly when it has
no bit. A call that sees its arguments renders it also when it has fewer than 32 bits in at least two
words and a buffer whose size is an `int`. -/
theorem renders_iff (words : List (BitVec 32)) {n : ℕ} (hbits : n ≤ 32 * words.length)
    (hint : n < 2 ^ 31) :
    ((∀ c buffer, c.words = words → Wellformed c n → Rendered c buffer n) ↔ n = 0) ∧
      ∀ c buffer, c.words = words → Wellformed c n → SeesArguments c →
        (Rendered c buffer n ↔ n = 0 ∨ (n < 32 ∧ 2 ≤ words.length ∧ c.buflen.toNat ≤ intMax)) := by
  refine ⟨⟨fun h => ?_, ?_⟩, ?_⟩
  · by_contra hne
    exact zeroFrame_garbled words (Nat.pos_of_ne_zero hne) hint
      (h (sampleCall zeroFrame words) (fun _ => 0) rfl
        (sampleCall_wellformed (fun _ _ _ => by rw [zeroFrame, List.length_replicate]) words hbits
          hint))
  · rintro rfl c buffer - -
    exact rendered_zero c buffer
  · rintro c buffer rfl hw hsees
    exact rendered_seeing hw hsees buffer

/-- Eight bits of two words are `a5`. A call that sees its arguments renders them, but not every call
does. -/
theorem renders_iff_eight : bitmapText [0xa5#32, 0#32] 8 = "a5".toList.map code ∧
    Rendered (sampleCall argBytes [0xa5#32, 0#32]) (fun _ => 0) 8 ∧
    ¬ ∀ c buffer, c.words = [0xa5#32, 0#32] → Wellformed c 8 → Rendered c buffer 8 := by
  have hiff := renders_iff [0xa5#32, 0#32] (n := 8) (by decide) (by decide)
  refine ⟨by decide, ?_, fun h => absurd (hiff.1.mp h) (by decide)⟩
  exact (hiff.2 (sampleCall argBytes [0xa5#32, 0#32]) (fun _ => 0) rfl
    (sampleCall_wellformed (fun _ _ _ => (argBytes_length _ _ _).ge) _ (by decide) (by decide))
    fun _ _ _ => ⟨[], (List.append_nil _).symm⟩).mpr (Or.inr ⟨by decide, by decide, by decide⟩)

/-- With zeros where `scnprintf` looks for its arguments, eight bits `a5` are printed as `(null)0`. With
its arguments in place there, forty bits of two words have no result, and neither have eight bits of
one word. -/
theorem bitmap_counterexample :
    (bitmapText [0xa5#32, 0#32] 8 = "a5".toList.map code ∧
      Wellformed (sampleCall zeroFrame [0xa5#32, 0#32]) 8 ∧
      (bitmapScnprintf (sampleCall zeroFrame [0xa5#32, 0#32]) (fun _ => 0) 8 2).map
        (fun r => (r.1, (List.range 7).map r.2)) = some (7, "(null)0".toList.map code) ∧
      ¬ Rendered (sampleCall zeroFrame [0xa5#32, 0#32]) (fun _ => 0) 8) ∧
    (bitmapText [0xa5#32, 0xff#32] 40 = "ff,000000a5".toList.map code ∧
      Wellformed (sampleCall argBytes [0xa5#32, 0xff#32]) 40 ∧
      ∀ fuel, bitmapScnprintf (sampleCall argBytes [0xa5#32, 0xff#32]) (fun _ => 0) 40 fuel =
        none) ∧
    Wellformed (sampleCall argBytes [0xa5#32]) 8 ∧
      ∀ fuel, bitmapScnprintf (sampleCall argBytes [0xa5#32]) (fun _ => 0) 8 fuel = none := by
  have hargs : ∀ sep digits val, 20 ≤ (argBytes sep digits val).length :=
    fun _ _ _ => (argBytes_length _ _ _).ge
  have hzero : ∀ sep digits val, 20 ≤ (zeroFrame sep digits val).length :=
    fun _ _ _ => by rw [zeroFrame, List.length_replicate]
  refine ⟨⟨by decide, sampleCall_wellformed hzero _ (by decide) (by decide), by decide +kernel,
    zeroFrame_garbled _ (by decide) (by decide)⟩, ⟨by decide,
    sampleCall_wellformed hargs _ (by decide) (by decide), fun fuel => ?_⟩,
    sampleCall_wellformed hargs _ (by decide) (by decide), fun fuel => ?_⟩
  · exact bitmapScnprintf_wide _ _ (by decide) (by decide) fuel
  · refine Option.eq_none_iff_forall_ne_some.mpr fun r hr => ?_
    have hone := bitmapScnprintf_only (by decide) (by decide) hr
    rw [onlyChunk_short _ _ _ (by decide)] at hone
    cases hone

end BiscuitOS.BitmapText
