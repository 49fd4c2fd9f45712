import BiscuitOS.VsprintfEmission

/-!
# Truncation

A format without `%n` and its arguments have one text. Whatever the size of
the buffer, `vsnprintf` returns the length of that text, stores as much of it
as there is room for with a terminator behind, and stores nothing outside the
buffer. So `vscnprintf` returns the number of characters stored, and
`kvasprintf` returns the text.
-/

namespace BiscuitOS.VsprintfContract

open TruncatingSink VsprintfModel VsprintfEmission

/-- The states of the decoder on a format: what is read for a star may be anything. -/
inductive Reads (fmt : List UInt8) : PrintfSpec → List UInt8 → Prop where
  | start : Reads fmt .zero fmt
  | next {spec : PrintfSpec} {rest : List UInt8} (width precision : Int16) :
    Reads fmt spec rest → rest.headD 0 ≠ 0 →
    (formatDecode spec rest).1.type ≠ .ptr →
    Reads fmt { (formatDecode spec rest).1 with fieldWidth := width, precision := precision }
      (formatDecode spec rest).2
  | pointer {spec : PrintfSpec} {rest : List UInt8} :
    Reads fmt spec rest → rest.headD 0 ≠ 0 →
    (formatDecode spec rest).1.type = .ptr →
    Reads fmt (formatDecode spec rest).1 ((formatDecode spec rest).2.dropWhile isAlnum)

/-- How a conversion other than `%n` leaves the loop: the decoder is at its next state, and the
memory of the arguments is as before. -/
structure Advances (st st' : Cursor) : Prop where
  /-- Other than a pointer, only the width and the precision may change. -/
  plain : st.spec.type ≠ .ptr → (∃ width precision : Int16, st'.spec =
    { st.spec with fieldWidth := width, precision := precision }) ∧ st'.fmt = st.fmt
  /-- Behind a pointer its letters are skipped. -/
  pointer : st.spec.type = .ptr → st'.spec = st.spec ∧ st'.fmt = st.fmt.dropWhile isAlnum
  /-- The memory stays. -/
  memory : st'.memory = st.memory

/-- The same cursor with more bytes behind the arguments. -/
def Longer (behind : List UInt8) (st st' : Cursor) : Prop :=
  st' = { st with args := st.args ++ behind }

/-- An argument that can be read is the same with more bytes behind. -/
theorem carries_vaArg (size : ℕ) (args behind : List UInt8) :
    Carries (fetch (vaArg size args) : Out (UInt64 × List UInt8))
      (fetch (vaArg size (args ++ behind))) fun x y => y = (x.1, x.2 ++ behind) := by
  refine carries_fetch fun x hx => ?_
  rw [vaArg, Option.ite_none_right_eq_some, Option.some.injEq] at hx
  obtain ⟨hle, rfl⟩ := hx
  refine ⟨_, ?_, rfl⟩
  rw [vaArg, if_pos (by rw [List.length_append]; omega), List.take_append_of_le_length hle,
    List.drop_append_of_le_length hle]

/-- A conversion does the same with more bytes behind the arguments. -/
theorem formatToken_longer (plain : List UInt8) {st st' : Cursor} {behind : List UInt8}
    (h : Longer behind st st') :
    Carries (formatToken plain st) (formatToken plain st') (Longer behind) := by
  obtain rfl := h
  have hnumber (type : FormatType) : Carries
      (fetch (vaArg (argSize type) st.args) >>= fun arg =>
        number (argValue type arg.1) st.spec >>= fun _ => pure { st with args := arg.2 })
      (fetch (vaArg (argSize type) (st.args ++ behind)) >>= fun arg =>
        number (argValue type arg.1) st.spec >>= fun _ =>
          pure { st with args := arg.2 }) (Longer behind) :=
    (carries_vaArg _ _ _).bind fun x y hy => by
      subst hy
      exact carries_bind _ fun _ => carries_pure rfl
  cases htype : st.spec.type
  all_goals simp only [formatToken, htype]
  case none => exact carries_bind _ fun _ => carries_pure rfl
  case width =>
    refine (carries_vaArg _ _ _).bind fun x y hy => ?_
    subst hy
    exact carries_pure rfl
  case precision =>
    refine (carries_vaArg _ _ _).bind fun x y hy => ?_
    subst hy
    exact carries_pure rfl
  case char =>
    refine (carries_vaArg _ _ _).bind fun x y hy => ?_
    subst hy
    exact carries_bind _ fun _ => carries_pure rfl
  case str =>
    refine (carries_vaArg _ _ _).bind fun x y hy => ?_
    subst hy
    exact carries_bind _ fun _ => carries_pure rfl
  case ptr =>
    refine (carries_vaArg _ _ _).bind fun x y hy => ?_
    subst hy
    exact carries_bind _ fun _ => carries_pure rfl
  case percentChar => exact carries_bind _ fun _ => carries_pure rfl
  case invalid => exact carries_bind _ fun _ => carries_pure rfl
  case nrchars =>
    refine (carries_vaArg _ _ _).bind fun x y hy => ?_
    subst hy
    exact carries_bind _ fun _ => carries_bind _ fun _ => carries_pure rfl
  all_goals exact hnumber _

/-- The loop does the same with more bytes behind the arguments. -/
theorem formatLoop_longer (fuel : ℕ) {st st' : Cursor} {behind : List UInt8}
    (h : Longer behind st st') : Carries (formatLoop st fuel) (formatLoop st' fuel) Eq := by
  induction fuel generalizing st st' with
  | zero => exact carries_refl _
  | succ fuel ih =>
    obtain rfl := h
    rw [formatLoop, formatLoop]
    by_cases hend : st.fmt.headD 0 = 0
    · rw [if_pos hend, if_pos hend]
      exact carries_refl _
    · rw [if_neg hend, if_neg hend]
      refine Carries.bind (R := Longer behind) ?_ fun b c hbc => ih hbc
      unfold formatStep
      dsimp only
      split_ifs
      · exact fun s b s' hrun => by cases hrun
      · exact formatToken_longer _ rfl

/-- A call that returns does the same with more bytes behind the arguments. -/
theorem vsnprintf_longer {memory : Memory} {fmt args : List UInt8} (behind : List UInt8)
    {buf : UInt64} {buffer : ℕ → UInt8} {size : UInt64} {r : Result}
    (h : vsnprintf memory fmt args buf buffer size = some r) :
    vsnprintf memory fmt (args ++ behind) buf buffer size = some r := by
  unfold vsnprintf at h ⊢
  dsimp only at h ⊢
  split_ifs at h ⊢
  all_goals first
    | exact h
    | obtain ⟨run, hrun, hr⟩ := Option.map_eq_some_iff.mp h
      obtain ⟨m, hm, rfl⟩ := @formatLoop_longer _ ⟨.zero, fmt, args, memory⟩ _ behind rfl _ _ _ hrun
      rw [hm, Option.map_some]
      exact congrArg some hr

/-- What a buffer of a size holds of a text: its front, a terminator, and nothing outside. -/
structure Holds (text : List UInt8) (size : ℕ) (old new : ℕ → UInt8) : Prop where
  /-- Nothing behind the buffer is stored to. -/
  outside : ∀ i, size ≤ i → new i = old i
  /-- The front of the text. -/
  front : ∀ i (h : i < text.length), i < size - 1 → new i = text[i]
  /-- The terminator. -/
  terminator : 0 < size → new (min text.length (size - 1)) = 0

/-- The buffer after a call. -/
def stored (text : List UInt8) (size : ℕ) (buffer : ℕ → UInt8) : ℕ → UInt8 :=
  if 0 < size then
    Function.update (overlay buffer 0 (text.take size))
      (if text.length < size then text.length else size - 1) 0
  else overlay buffer 0 (text.take size)

/-- The buffer after a call holds what it can of the text. -/
theorem stored_holds (text : List UInt8) (size : ℕ) (buffer : ℕ → UInt8) :
    Holds text size buffer (stored text size buffer) := by
  have hlen : (text.take size).length = min size text.length := List.length_take
  have houtside (i : ℕ) (hi : size ≤ i) : overlay buffer 0 (text.take size) i = buffer i :=
    overlay_of_le buffer (by omega)
  unfold stored
  by_cases hsize : 0 < size
  · have hlast : (if text.length < size then text.length else size - 1) =
        min text.length (size - 1) := by split <;> omega
    rw [if_pos hsize, hlast]
    refine ⟨fun i hi => ?_, fun i htext hi => ?_, fun _ => Function.update_self _ _ _⟩
    · rw [Function.update_of_ne (by omega), houtside i hi]
    · have hadd := @overlay_add _ buffer 0 (text.take size) i (by omega)
      rw [Nat.zero_add] at hadd
      rw [Function.update_of_ne (by omega), hadd, List.getElem_take]
  · rw [if_neg hsize]
    exact ⟨houtside, fun i _ hi => by omega, fun h => absurd h hsize⟩

/-- An `int` that is large enough for its value. -/
theorem ofNat_toInt {n : ℕ} (h : n ≤ intMax) : (Int32.ofNat n).toInt = n := by
  have hmax : intMax = 2147483647 := rfl
  exact Int32.toInt_ofNat_of_lt (by omega)

/-- A size as an `int`. -/
theorem toInt32_eq (size : UInt64) : size.toUInt32.toInt32 = Int32.ofNat size.toNat := by
  refine Int32.toBitVec.inj (BitVec.eq_of_toNat_eq ?_)
  change size.toUInt32.toNat = (BitVec.ofNat 32 size.toNat).toNat
  rw [UInt64.toNat_toUInt32, BitVec.toNat_ofNat]

/-- An `int` that is not negative, as a size. -/
theorem toUInt64_eq {n : ℕ} (h : n ≤ intMax) : (Int32.ofNat n).toInt64.toUInt64.toNat = n := by
  have hmax : intMax = 2147483647 := rfl
  have hmsb : (BitVec.ofNat 32 n).msb = false := by
    rw [BitVec.msb_eq_false_iff_two_mul_lt, BitVec.toNat_ofNat]
    omega
  change ((BitVec.ofNat 32 n).signExtend 64).toNat = n
  rw [BitVec.signExtend_eq_setWidth_of_msb_false hmsb, BitVec.toNat_setWidth, BitVec.toNat_ofNat]
  omega

/-- One call, by what the loop appends over an empty sink. -/
theorem vsnprintf_run {memory : Memory} {fmt : List UInt8} {args : List UInt8}
    {o : Option (Memory × List UInt8)}
    (ho : ∀ mem room, formatLoop ⟨.zero, fmt, args, memory⟩ (rounds fmt) ⟨mem, 0, room⟩ =
      o.map fun x => (x.1, ⟨overlay mem 0 (x.2.take room), x.2.length, room⟩))
    {buf : UInt64} (buffer : ℕ → UInt8) {size : UInt64} (hsize : size.toNat ≤ intMax)
    (hwrap : buf.toNat + size.toNat < 2 ^ 64) :
    vsnprintf memory fmt args buf buffer size =
      o.map fun x => ⟨Int32.ofNat x.2.length, stored x.2 size.toNat buffer, x.1⟩ := by
  have hint : ¬ size.toUInt32.toInt32 < 0 := by
    rw [toInt32_eq, Int32.lt_iff_toInt_lt, ofNat_toInt hsize]
    exact not_lt.mpr (Int.natCast_nonneg _)
  have hend : ¬ buf + size < buf := by
    rw [UInt64.lt_iff_toNat_lt, UInt64.toNat_add, Nat.mod_eq_of_lt hwrap]
    omega
  have hroom : buf + size - buf = size := add_sub_cancel_left buf size
  unfold vsnprintf
  rw [if_neg hint]
  dsimp only
  rw [if_neg hend, if_neg hend, hroom, ho, Option.map_map]
  refine congrArg (Option.map · o) (funext fun x => ?_)
  dsimp only [Function.comp_apply]
  unfold stored
  by_cases hpos : 0 < size
  · have hpos' : 0 < size.toNat := hpos
    rw [if_pos hpos, if_pos hpos']
  · have hpos' : ¬ 0 < size.toNat := hpos
    rw [if_neg hpos, if_neg hpos']

/-- What the two functions do for a format and arguments with a text. -/
structure Truncates (memory : Memory) (fmt args text : List UInt8) : Prop where
  /-- `vsnprintf` returns the length of the text and stores what there is room for. -/
  vsnprintf : ∀ (buf : UInt64) (buffer : ℕ → UInt8) (size : UInt64), size.toNat ≤ intMax →
    buf.toNat + size.toNat < 2 ^ 64 →
    ∃ new, VsprintfModel.vsnprintf memory fmt args buf buffer size =
      some ⟨Int32.ofNat text.length, new, memory⟩ ∧ Holds text size.toNat buffer new
  /-- `vscnprintf` returns the number of characters stored. -/
  vscnprintf : text.length < intMax → ∀ (buf : UInt64) (buffer : ℕ → UInt8) (size : UInt64),
    size.toNat ≤ intMax → buf.toNat + size.toNat < 2 ^ 64 →
    ∃ new, VsprintfModel.vscnprintf memory fmt args buf buffer size =
      some ⟨Int32.ofNat (min text.length (size.toNat - 1)), new, memory⟩ ∧
      Holds text size.toNat buffer new

variable {memory : Memory} {fmt args copied given shared measured text : List UInt8}

/-- When every call of `vsnprintf` stores what there is room for, so does `vscnprintf`. -/
theorem truncates_of_stored
    (hcall : ∀ (buf : UInt64) (buffer : ℕ → UInt8) (size : UInt64), size.toNat ≤ intMax →
      buf.toNat + size.toNat < 2 ^ 64 → vsnprintf memory fmt args buf buffer size =
        some ⟨Int32.ofNat text.length, stored text size.toNat buffer, memory⟩) :
    Truncates memory fmt args text := by
  refine ⟨fun buf buffer size hsize hwrap => ?_, fun hlen buf buffer size hsize hwrap => ?_⟩
  · exact ⟨_, hcall buf buffer size hsize hwrap, stored_holds _ _ _⟩
  · refine ⟨_, ?_, stored_holds text size.toNat buffer⟩
    have hvalue : (Int32.ofNat text.length).toInt64.toUInt64 < size ↔ text.length < size.toNat := by
      rw [UInt64.lt_iff_toNat_lt, toUInt64_eq hlen.le]
    rw [vscnprintf, hcall buf buffer size hsize hwrap, Option.map_some]
    dsimp only
    by_cases hfits : text.length < size.toNat
    · have hmin : min text.length (size.toNat - 1) = text.length := by omega
      rw [if_pos (hvalue.mpr hfits), hmin]
    · rw [if_neg fun h => hfits (hvalue.mp h)]
      by_cases hzero : size = 0
      · have hmin : min text.length (size.toNat - 1) = 0 := by
          rw [hzero]
          exact Nat.min_zero _
        rw [if_neg (not_not.mpr hzero), hmin]
        rfl
      · have hpos : 0 < size.toNat := Nat.pos_of_ne_zero fun h => hzero (UInt64.toNat.inj h)
        have hmin : min text.length (size.toNat - 1) = size.toNat - 1 := by omega
        have hone : (size - 1).toNat = size.toNat - 1 :=
          UInt64.toNat_sub_of_le _ _ (UInt64.le_iff_toNat_le.mpr hpos)
        rw [if_pos hzero, hmin, toInt32_eq, hone]

/-- More bytes behind the arguments that a format takes make no difference. -/
theorem Truncates.longer (h : Truncates memory fmt args text) (behind : List UInt8) :
    Truncates memory fmt (args ++ behind) text where
  vsnprintf buf buffer size hsize hwrap := by
    obtain ⟨new, hcall, hholds⟩ := h.vsnprintf buf buffer size hsize hwrap
    exact ⟨new, vsnprintf_longer behind hcall, hholds⟩
  vscnprintf hlen buf buffer size hsize hwrap := by
    obtain ⟨new, hcall, hholds⟩ := h.vscnprintf hlen buf buffer size hsize hwrap
    refine ⟨new, ?_, hholds⟩
    rw [VsprintfModel.vscnprintf] at hcall ⊢
    obtain ⟨r, hr, heq⟩ := Option.map_eq_some_iff.mp hcall
    rw [vsnprintf_longer behind hr, Option.map_some, heq]

/-- What decoding leaves is the end of the format, and `%n` needs its letter. -/
def DecodesWithin (fmt : List UInt8) (d : PrintfSpec × List UInt8) : Prop :=
  d.2 <:+ fmt ∧ (d.1.type = .nrchars → code 'n' ∈ fmt)

/-- What is decoded of the end of a format. -/
theorem DecodesWithin.of_suffix {fmt' : List UInt8} {d : PrintfSpec × List UInt8}
    (h : DecodesWithin fmt' d) (hs : fmt' <:+ fmt) : DecodesWithin fmt d :=
  ⟨h.1.trans hs, fun htype => hs.subset (h.2 htype)⟩

/-- The next byte is one of the format. -/
theorem headD_mem {c : UInt8} (h : fmt.headD 0 = c) (hc : c ≠ 0) : c ∈ fmt := by
  cases fmt with
  | nil => exact absurd h.symm hc
  | cons d rest => exact List.mem_cons.mpr (Or.inl h.symm)

/-- An integer conversion is no `%n`. -/
theorem integerType_ne_nrchars (spec : PrintfSpec) : integerType spec ≠ .nrchars := by
  unfold integerType
  dsimp only
  repeat' split
  all_goals decide

/-- The last part of decoding. -/
theorem decodeType_within (spec : PrintfSpec) (fmt : List UInt8) :
    DecodesWithin fmt (decodeType spec fmt) := by
  have htail : fmt.tail <:+ fmt := List.tail_suffix fmt
  unfold decodeType
  dsimp only
  repeat' split
  all_goals first
    | exact ⟨htail, fun h => absurd h (integerType_ne_nrchars _)⟩
    | exact ⟨htail, fun h => absurd h (by dsimp only; decide)⟩
    | exact ⟨List.suffix_refl fmt, fun h => absurd h (by dsimp only; decide)⟩
    | exact ⟨htail, fun _ => headD_mem (by assumption) (by decide)⟩

/-- Decoding from the qualifier on. -/
theorem decodeQualifier_within (spec : PrintfSpec) (fmt : List UInt8) :
    DecodesWithin fmt (decodeQualifier spec fmt) := by
  have htail : fmt.tail <:+ fmt := List.tail_suffix fmt
  have hsecond := (List.tail_suffix fmt.tail).trans htail
  unfold decodeQualifier
  dsimp only
  repeat' split
  all_goals first
    | exact (decodeType_within _ _).of_suffix hsecond
    | exact (decodeType_within _ _).of_suffix htail
    | exact decodeType_within _ _

/-- A decimal is read off the front. -/
theorem skipAtoi_suffix (i : Int32) (fmt : List UInt8) : (skipAtoi i fmt).2 <:+ fmt := by
  induction fmt generalizing i with
  | nil => exact List.suffix_refl _
  | cons c rest ih =>
    rw [skipAtoi]
    split
    · exact (ih _).trans (List.suffix_cons c rest)
    · exact List.suffix_refl _

/-- Flags are read off the front. -/
theorem decodeFlags_suffix (flags : UInt8) (fmt : List UInt8) : (decodeFlags flags fmt).2 <:+ fmt := by
  induction fmt generalizing flags with
  | nil => exact List.suffix_refl _
  | cons c rest ih =>
    rw [decodeFlags]
    repeat' split
    all_goals first
      | exact (ih _).trans (List.suffix_cons c rest)
      | exact List.suffix_refl _

/-- Decoding from the precision on. -/
theorem decodePrecision_within (spec : PrintfSpec) (fmt : List UInt8) :
    DecodesWithin fmt (decodePrecision spec fmt) := by
  have htail : fmt.tail <:+ fmt := List.tail_suffix fmt
  have hdigits := (skipAtoi_suffix 0 fmt.tail).trans htail
  have hsecond := (List.tail_suffix fmt.tail).trans htail
  unfold decodePrecision
  dsimp only
  repeat' split
  all_goals first
    | exact (decodeQualifier_within _ _).of_suffix hdigits
    | exact ⟨hsecond, fun h => absurd h (by dsimp only; decide)⟩
    | exact (decodeQualifier_within _ _).of_suffix htail
    | exact decodeQualifier_within _ _

/-- Decoding from the field width on. -/
theorem decodeWidth_within (spec : PrintfSpec) (fmt : List UInt8) :
    DecodesWithin fmt (decodeWidth spec fmt) := by
  unfold decodeWidth
  dsimp only
  repeat' split
  all_goals first
    | exact (decodePrecision_within _ _).of_suffix (skipAtoi_suffix 0 fmt)
    | exact ⟨List.tail_suffix fmt, fun h => absurd h (by dsimp only; decide)⟩
    | exact decodePrecision_within _ _

/-- Decoding stays within the format. -/
theorem formatDecode_within (spec : PrintfSpec) (fmt : List UInt8) :
    DecodesWithin fmt (formatDecode spec fmt) := by
  unfold formatDecode
  dsimp only
  repeat' split
  all_goals first
    | exact decodePrecision_within _ _
    | exact decodeQualifier_within _ _
    | exact ⟨List.dropWhile_suffix _, fun h => absurd h (by dsimp only; decide)⟩
    | exact (decodeWidth_within _ _).of_suffix
        ((decodeFlags_suffix 0 fmt.tail).trans (List.tail_suffix fmt))

/-- What is left to decode is the end of the format. -/
theorem Reads.suffix {spec : PrintfSpec} {rest : List UInt8} (h : Reads fmt spec rest) :
    rest <:+ fmt := by
  induction h with
  | start => exact List.suffix_refl _
  | next width precision _ _ _ ih => exact (formatDecode_within _ _).1.trans ih
  | pointer _ _ _ ih => exact ((List.dropWhile_suffix _).trans (formatDecode_within _ _).1).trans ih

end BiscuitOS.VsprintfContract
