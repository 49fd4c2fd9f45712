import BiscuitOS.StrtoullModel

/-!
# Numbers by the grammar

The loop of `simple_strtoull` reads the longest run of digits. Both copies are
the grammar on strings without a leading zero and in the bases 8 and 10. On a
leading zero the copy of `lib/string.c` never guesses base 16 and skips two
bytes of every hex number, the one of `lib/vsprintf.c` always guesses base 16
and skips nothing.
-/

namespace BiscuitOS.StrtoullContract

open MachineWord VsprintfModel StrtoullModel

variable {s : Chars} {text rest : List UInt8} {base fuel k result : ℕ} {c d : UInt8}

/-- What lies in memory at a place of a string. -/
theorem holds_at (h : Holds s text) (hk : k ≤ text.length) : s k = some ((text.drop k).headD 0) := by
  rcases Nat.lt_or_eq_of_le hk with hlt | rfl
  · rw [h.bytes k hlt, List.drop_eq_getElem_cons hlt]
    rfl
  · rw [h.terminated, List.drop_length]
    rfl

/-- The value of digits with one in front. -/
theorem valueOf_cons (base : ℕ) (c : UInt8) (rest : List UInt8) :
    valueOf base (c :: rest) = digitValue c * base ^ rest.length + valueOf base rest := rfl

/-- The loop reads the longest run of digits from a place of a string. -/
theorem strtoullLoop_run (h : Holds s text) (base : ℕ) (hk : k ≤ text.length)
    (hfuel : text.length - k < fuel) (hresult : result < 2 ^ 64) :
    strtoullLoop s base fuel k result =
      some ((result * base ^ (digitRun base (text.drop k)).length +
          valueOf base (digitRun base (text.drop k))) % 2 ^ 64,
        k + (digitRun base (text.drop k)).length) := by
  induction hlen : text.length - k generalizing k fuel result with
  | zero =>
    obtain ⟨fuel, rfl⟩ : ∃ m, fuel = m + 1 := ⟨fuel - 1, by omega⟩
    have hdrop : text.drop k = [] := List.drop_eq_nil_of_le (by omega)
    rw [strtoullLoop, holds_at h hk, hdrop, Option.bind_some]
    have hzero : isXdigit (([] : List UInt8).headD 0) = false := by decide
    rw [hzero, if_neg Bool.false_ne_true, digitRun, List.takeWhile_nil, List.length_nil, pow_zero,
      Nat.mul_one, valueOf, Nat.add_zero, Nat.add_zero, Nat.mod_eq_of_lt hresult]
  | succ n ih =>
    obtain ⟨fuel, rfl⟩ : ∃ m, fuel = m + 1 := ⟨fuel - 1, by omega⟩
    have hlt : k < text.length := by omega
    have hdrop := List.drop_eq_getElem_cons hlt
    generalize text[k] = c at hdrop
    rw [strtoullLoop, holds_at h hk, hdrop, Option.bind_some, List.headD_cons, digitRun,
      List.takeWhile_cons, validDigit]
    cases hx : isXdigit c with
    | false =>
      rw [if_neg Bool.false_ne_true, Bool.false_and, if_neg Bool.false_ne_true, List.length_nil,
        pow_zero, Nat.mul_one, valueOf, Nat.add_zero, Nat.add_zero, Nat.mod_eq_of_lt hresult]
    | true =>
      rw [if_pos rfl, Bool.true_and]
      by_cases hbase : base ≤ digitValue c
      · rw [if_pos hbase, if_neg (by rw [decide_eq_true_eq]; omega), List.length_nil, pow_zero,
          Nat.mul_one, valueOf, Nat.add_zero, Nat.add_zero, Nat.mod_eq_of_lt hresult]
      · rw [if_neg hbase, if_pos (by rw [decide_eq_true_eq]; omega),
          ih (by omega) (by omega) (wrap_lt 64 _) (by omega), ← digitRun, List.length_cons, valueOf_cons,
          wrap]
        have hvalue : ((result * base + digitValue c) % 2 ^ 64 *
              base ^ (digitRun base (text.drop (k + 1))).length +
            valueOf base (digitRun base (text.drop (k + 1)))) % 2 ^ 64 =
            (result * base ^ ((digitRun base (text.drop (k + 1))).length + 1) +
              (digitValue c * base ^ (digitRun base (text.drop (k + 1))).length +
                valueOf base (digitRun base (text.drop (k + 1))))) % 2 ^ 64 := by
          rw [Nat.add_mod, Nat.mod_mul_mod, ← Nat.add_mod, pow_succ]
          ring_nf
        rw [hvalue, Nat.add_assoc k, Nat.add_comm 1]

/-- The loop does not go back. -/
theorem strtoullLoop_end {fuel k result : ℕ} {r : ℕ × ℕ}
    (h : strtoullLoop s base fuel k result = some r) : k ≤ r.2 := by
  induction fuel generalizing k result with
  | zero => cases h
  | succ fuel ih =>
    rw [strtoullLoop, Option.bind_eq_some_iff] at h
    obtain ⟨c, -, h⟩ := h
    split_ifs at h
    · rw [← Option.some.inj h]
    · exact (Nat.le_succ k).trans (ih h)
    · rw [← Option.some.inj h]

/-- A property of all bytes is checked on their numbers. -/
theorem forall_byte {p : UInt8 → Prop} (h : ∀ n < 256, p (UInt8.ofNat n)) (c : UInt8) : p c := by
  have := h c.toNat c.toNat_lt
  rwa [UInt8.ofNat_toNat] at this

/-- `TOLOWER` never gives an upper case letter. -/
theorem toLower_ne : ∀ c : UInt8, toLower c ≠ code 'X' := forall_byte (by decide +kernel)

/-- The value of a hex digit. -/
theorem digitValue_lt : ∀ c : UInt8, isXdigit c = true → digitValue c < 16 :=
  forall_byte (by decide +kernel)

/-- The letter of a hex prefix is no digit. -/
theorem isXdigit_x : isXdigit (code 'x') = false ∧ isXdigit (code 'X') = false ∧ isXdigit 0 = false := by
  decide

/-- A zero is a digit of every base. -/
theorem zero_digit : isXdigit (code '0') = true ∧ digitValue (code '0') = 0 := by
  decide

/-- What `lib/string.c` finds skippable. -/
theorem str_skips (d : UInt8) : decide ((decide (d = code 'X')).toNat ||| 0x20 ≠ 0) = true := by
  cases decide (d = code 'X') with
  | false => decide
  | true => decide

/-- The value and the end of the digits from a place of a string. -/
def readAt (base k : ℕ) (text : List UInt8) : ℕ × ℕ :=
  (valueOf base (digitRun base (text.drop k)) % 2 ^ 64, k + (digitRun base (text.drop k)).length)

/-- The grammar reads from behind what it skips. -/
theorem grammar_eq (base : ℕ) (text : List UInt8) :
    grammar base text = readAt (grammarBase base text) (skipped (grammarBase base text) text) text := rfl

/-- The loop from its start. -/
theorem strtoullLoop_start (h : Holds s text) (base : ℕ) (hk : k ≤ text.length)
    (hfuel : text.length < fuel) : strtoullLoop s base fuel k 0 = some (readAt base k text) := by
  rw [strtoullLoop_run h base hk (by omega) (by decide), Nat.zero_mul, Nat.zero_add, readAt]

/-- A string that starts with a byte has room for it. -/
theorem length_pos_of_head (hhead : text.headD 0 = code '0') : 0 < text.length := by
  cases text with
  | nil => exact absurd hhead (by decide)
  | cons c rest => exact Nat.succ_pos _

/-- The base that `lib/string.c` guesses. -/
theorem str_guess (h : Holds s text) :
    Str.simpleGuessBase s = some (if text.headD 0 = code '0' then 8 else 10) := by
  rw [Str.simpleGuessBase, holds_at h (Nat.zero_le _), Option.bind_some, List.drop_zero]
  by_cases hhead : text.headD 0 = code '0'
  · rw [if_pos hhead, if_pos hhead, holds_at h (length_pos_of_head hhead), Option.bind_some,
      if_neg (toLower_ne _)]
  · rw [if_neg hhead, if_neg hhead]

/-- The base that `lib/vsprintf.c` guesses. -/
theorem vsprintf_guess (h : Holds s text) :
    Vsprintf.simpleGuessBase s = some (if text.headD 0 = code '0' then 16 else 10) := by
  have hword : ∀ hex : Bool, (if hex.toNat ||| 0x20 ≠ 0 then 16 else 8) = 16 := by decide
  rw [Vsprintf.simpleGuessBase, holds_at h (Nat.zero_le _), Option.bind_some, List.drop_zero]
  by_cases hhead : text.headD 0 = code '0'
  · rw [if_pos hhead, if_pos hhead, holds_at h (length_pos_of_head hhead), Option.bind_some]
    by_cases hx : (text.drop 1).headD 0 = code 'x'
    · have hlen : 2 ≤ text.length := by
        by_contra hlt
        rw [List.drop_eq_nil_of_le (by omega)] at hx
        exact absurd hx (by decide)
      rw [if_pos hx, holds_at h hlen, Option.map_some, Option.map_some, hword]
    · rw [if_neg hx, Option.map_some, hword]
  · rw [if_neg hhead, if_neg hhead]

/-- The copy of `lib/vsprintf.c` skips nothing. -/
theorem vsprintf_eq (h : Holds s text) (base : ℕ) (hfuel : text.length < fuel) :
    Vsprintf.simpleStrtoull fuel s base = some
      (readAt (if base = 0 then if text.headD 0 = code '0' then 16 else 10 else base) 0 text) := by
  have hguess : (if base = 0 then Vsprintf.simpleGuessBase s else some base) =
      some (if base = 0 then if text.headD 0 = code '0' then 16 else 10 else base) := by
    rw [vsprintf_guess h]
    split_ifs <;> rfl
  rw [Vsprintf.simpleStrtoull, simpleStrtoullWith, hguess, Option.bind_some]
  generalize (if base = 0 then if text.headD 0 = code '0' then 16 else 10 else base) = b
  rw [holds_at h (Nat.zero_le _), Option.bind_some, List.drop_zero]
  have hstart : (if b = 16 then if text.headD 0 = code '0' then
      (s 1).map fun d => if decide (toLower d = code 'X') = true then 2 else 0 else some 0
      else some 0) = some 0 := by
    by_cases hb : b = 16
    · rw [if_pos hb]
      by_cases hhead : text.headD 0 = code '0'
      · have hskip := decide_eq_false (toLower_ne ((text.drop 1).headD 0))
        rw [if_pos hhead, holds_at h (length_pos_of_head hhead), Option.map_some, hskip,
          if_neg Bool.false_ne_true]
      · rw [if_neg hhead]
    · rw [if_neg hb]
  rw [hstart, Option.bind_some, strtoullLoop_start h b (Nat.zero_le _) hfuel]

/-- The copy of `lib/string.c` skips two bytes of a hex number with a leading zero. -/
theorem str_eq (h : Holds s text) (base fuel : ℕ) :
    Str.simpleStrtoull fuel s base =
      strtoullLoop s (if base = 0 then if text.headD 0 = code '0' then 8 else 10 else base) fuel
        (if base = 16 ∧ text.headD 0 = code '0' then 2 else 0) 0 := by
  have hguess : (if base = 0 then Str.simpleGuessBase s else some base) =
      some (if base = 0 then if text.headD 0 = code '0' then 8 else 10 else base) := by
    rw [str_guess h]
    split_ifs <;> rfl
  have hsixteen : (if base = 0 then if text.headD 0 = code '0' then 8 else 10 else base) = 16 ↔
      base = 16 := by
    split_ifs <;> omega
  rw [Str.simpleStrtoull, simpleStrtoullWith, hguess, Option.bind_some]
  generalize (if base = 0 then if text.headD 0 = code '0' then 8 else 10 else base) = b at hsixteen
  rw [holds_at h (Nat.zero_le _), Option.bind_some, List.drop_zero]
  by_cases hhead : text.headD 0 = code '0'
  · rw [if_pos hhead, holds_at h (length_pos_of_head hhead), Option.map_some, if_pos (str_skips _)]
    by_cases hb : b = 16
    · rw [if_pos hb, if_pos ⟨hsixteen.mp hb, hhead⟩, Option.bind_some]
    · rw [if_neg hb, if_neg (fun hc => hb (hsixteen.mpr hc.1)), Option.bind_some]
  · rw [if_neg hhead, ite_self, if_neg (fun hc => hhead hc.2), Option.bind_some]

/-- A hex prefix by the first two bytes. -/
theorem startsHex_iff (text : List UInt8) : startsHex text = true ↔
    text.headD 0 = code '0' ∧ (text.tail.headD 0 = code 'x' ∨ text.tail.headD 0 = code 'X') := by
  have hzero : (0 : UInt8) ≠ code '0' ∧ (0 : UInt8) ≠ code 'x' ∧ (0 : UInt8) ≠ code 'X' := by
    decide
  match text with
  | [] => exact ⟨fun h => Bool.noConfusion h, fun h => absurd h.1 hzero.1⟩
  | [c] =>
    exact ⟨fun h => Bool.noConfusion h, fun h => (h.2.elim hzero.2.1 hzero.2.2).elim⟩
  | c :: d :: rest =>
    rw [startsHex, Bool.and_eq_true, Bool.or_eq_true, decide_eq_true_eq, decide_eq_true_eq,
      decide_eq_true_eq]
    rfl

/-- A byte behind a zero that is a digit is no hex prefix. -/
theorem startsHex_of_digit (h : isXdigit (text.tail.headD 0) = true) : startsHex text = false := by
  rw [Bool.eq_false_iff]
  intro hhex
  rcases ((startsHex_iff text).mp hhex).2 with hx | hx
  · rw [hx, isXdigit_x.1] at h
    cases h
  · rw [hx, isXdigit_x.2.1] at h
    cases h

/-- A run of digits is no longer than the string. -/
theorem run_le (base : ℕ) (text : List UInt8) : (digitRun base text).length ≤ text.length :=
  (List.takeWhile_prefix _).length_le

/-- A string with a leading zero, that zero apart. -/
theorem eq_zero_cons (hhead : text.headD 0 = code '0') : text = code '0' :: text.tail := by
  cases text with
  | nil => exact absurd hhead (by decide)
  | cons c rest => rw [List.headD_cons] at hhead; rw [hhead, List.tail_cons]

/-- Digits with one in front. -/
theorem digitRun_cons (hx : isXdigit c = true) (hbase : digitValue c < base) (rest : List UInt8) :
    digitRun base (c :: rest) = c :: digitRun base rest := by
  rw [digitRun, List.takeWhile_cons, validDigit, hx, Bool.true_and, decide_eq_true hbase, if_pos rfl,
    digitRun]

/-- No digits in front of another byte. -/
theorem digitRun_nil (hx : isXdigit (rest.headD 0) = false) (base : ℕ) : digitRun base rest = [] := by
  cases rest with
  | nil => rfl
  | cons c rest =>
    rw [List.headD_cons] at hx
    rw [digitRun, List.takeWhile_cons, validDigit, hx, Bool.false_and, if_neg Bool.false_ne_true]

/-- Digits with a leading zero. -/
theorem digitRun_zero (hhead : text.headD 0 = code '0') (hbase : 0 < base) :
    digitRun base text = code '0' :: digitRun base text.tail := by
  conv_lhs => rw [eq_zero_cons hhead]
  exact digitRun_cons zero_digit.1 (zero_digit.2 ▸ hbase) _

/-- A zero behind which no digit follows. -/
theorem readAt_zero (hhead : text.headD 0 = code '0') (hbase : 0 < base)
    (hx : isXdigit (text.tail.headD 0) = false) : (readAt base 0 text).2 = 1 := by
  rw [readAt]
  dsimp only
  rw [List.drop_zero, digitRun_zero hhead hbase, digitRun_nil hx]
  rfl

/-- Two bases with runs of one length have one run. -/
theorem digitRun_eq_of_length {a b : ℕ} (h : (digitRun a text).length = (digitRun b text).length) :
    digitRun a text = digitRun b text :=
  (List.prefix_of_prefix_length_le (List.takeWhile_prefix _) (List.takeWhile_prefix _) h.le).eq_of_length h

/-- What the grammar skips lies in the string. -/
theorem skipped_le (base : ℕ) (text : List UInt8) : skipped base text ≤ text.length := by
  rw [skipped]
  by_cases hskip : base = 16 ∧ startsHex text
  · rw [if_pos hskip]
    have hhex := hskip.2
    match text with
    | [] => cases hhex
    | [c] => cases hhex
    | c :: d :: rest =>
      rw [List.length_cons, List.length_cons]
      omega
  · rw [if_neg hskip]
    exact Nat.zero_le _

/-- The end by the grammar lies in the string. -/
theorem grammar_le (base : ℕ) (text : List UInt8) : (grammar base text).2 ≤ text.length := by
  have hskip := skipped_le (grammarBase base text) text
  have hrun := run_le (grammarBase base text) (text.drop (skipped (grammarBase base text) text))
  rw [List.length_drop] at hrun
  rw [grammar_eq, readAt]
  dsimp only
  omega

/-- Without a leading zero the grammar skips nothing and guesses base 10. -/
theorem grammar_nonzero (hhead : text.headD 0 ≠ code '0') (base : ℕ) :
    grammar base text = readAt (if base = 0 then 10 else base) 0 text := by
  have hhex : startsHex text = false := by
    rw [Bool.eq_false_iff]
    exact fun h => hhead ((startsHex_iff text).mp h).1
  have hskip : ∀ b, skipped b text = 0 := fun b => by
    rw [skipped, hhex]
    exact if_neg fun h => Bool.noConfusion h.2
  rw [grammar_eq, hskip, grammarBase, hexPrefix, hhex, Bool.false_and, if_neg Bool.false_ne_true,
    if_neg hhead]

/-- A string without a hex prefix is read from its start. -/
theorem grammar_plain (hbase : base ≠ 0) (hhex : base = 16 → startsHex text = false) :
    grammar base text = readAt base 0 text := by
  have hskip : skipped base text = 0 := by
    rw [skipped]
    refine if_neg fun h => ?_
    rw [hhex h.1] at h
    exact Bool.noConfusion h.2
  rw [grammar_eq, grammarBase, if_neg hbase, hskip]

/-- An octal number. -/
theorem grammar_octal (hhead : text.headD 0 = code '0') (hhex : hexPrefix text = false) :
    grammar 0 text = readAt 8 0 text := by
  have hguess : grammarBase 0 text = 8 := by
    rw [grammarBase, if_pos rfl, hhex, if_neg Bool.false_ne_true, if_pos hhead]
  rw [grammar_eq, hguess, skipped, if_neg (fun h => absurd h.1 (by decide))]

/-- Ten bits to the left are a factor of 1024. -/
theorem wrap_shift (v : ℕ) : wrap 64 (v <<< 10) = v * 1024 % 2 ^ 64 := by
  rw [wrap, Nat.shiftLeft_eq]

/-- The suffixes of `memparse` fall through to the factors that the grammar gives them. -/
theorem suffix_eq (c : UInt8) {v e : ℕ} (hv : v < 2 ^ 64) :
    (let giga := c = code 'G' ∨ c = code 'g'
      let mega := giga ∨ c = code 'M' ∨ c = code 'm'
      let kilo := mega ∨ c = code 'K' ∨ c = code 'k'
      let ret := if giga then wrap 64 (v <<< 10) else v
      let ret := if mega then wrap 64 (ret <<< 10) else ret
      if kilo then (wrap 64 (ret <<< 10), e + 1) else (ret, e)) =
      (v * 1024 ^ suffixPower c % 2 ^ 64, if suffixPower c = 0 then e else e + 1) := by
  dsimp only
  simp only [wrap_shift]
  by_cases hgiga : c = code 'G' ∨ c = code 'g'
  · have hpower : suffixPower c = 3 := by
      rcases hgiga with rfl | rfl
      · decide
      · decide
    rw [if_pos (.inl (.inl hgiga)), if_pos (.inl hgiga), if_pos hgiga, hpower, Nat.mod_mul_mod,
      Nat.mul_assoc, Nat.mod_mul_mod, Nat.mul_assoc]
    rfl
  · by_cases hmega : c = code 'M' ∨ c = code 'm'
    · have hpower : suffixPower c = 2 := by
        rcases hmega with rfl | rfl
        · decide
        · decide
      rw [if_pos (.inl (.inr hmega)), if_pos (.inr hmega), if_neg hgiga, hpower, Nat.mod_mul_mod,
        Nat.mul_assoc]
      rfl
    · by_cases hkilo : c = code 'K' ∨ c = code 'k'
      · have hpower : suffixPower c = 1 := by
          rcases hkilo with rfl | rfl
          · decide
          · decide
        rw [if_pos (.inr hkilo), if_neg (fun h => h.elim hgiga hmega), if_neg hgiga, hpower, pow_one]
        rfl
      · have hpower : suffixPower c = 0 := by
          rw [suffixPower, if_neg (fun h => hkilo h.symm), if_neg (fun h => hmega h.symm),
            if_neg (fun h => hgiga h.symm)]
        rw [if_neg (fun h => h.elim (fun h => h.elim hgiga hmega) hkilo),
          if_neg (fun h => h.elim hgiga hmega), if_neg hgiga, hpower, pow_zero, Nat.mul_one,
          if_pos rfl, Nat.mod_eq_of_lt hv]

/-- There are four powers. -/
theorem suffixPower_le (c : UInt8) : suffixPower c ≤ 3 := by
  rw [suffixPower]
  split_ifs <;> omega

/-- A value as an `int`. -/
theorem asInt_eq (v : ℕ) : asInt v =
    if v % 2 ^ 32 < 2 ^ 31 then v % 2 ^ 32 else v % 2 ^ 32 + (2 ^ 64 - 2 ^ 32) := by
  rw [asInt, toSigned, toUnsigned, Int.bmod_def, Nat.cast_pow, Nat.cast_ofNat]
  split_ifs <;> omega

theorem asInt_lt (v : ℕ) : asInt v < 2 ^ 64 := by
  rw [asInt_eq]
  split_ifs <;> omega

/-- Exactly the numbers that fit an `int` come out right. -/
theorem narrow_iff {v power : ℕ} (hv : v < 2 ^ 64) (hpower : power ≤ 3) :
    asInt v * 1024 ^ power % 2 ^ 64 = v * 1024 ^ power % 2 ^ 64 ↔ Narrow v power := by
  rw [asInt_eq, Narrow]
  interval_cases power
  all_goals
    norm_num only
    split_ifs <;> omega

/-- What `memparse` gives where the number is read by the grammar. -/
theorem memparse_eq (h : Holds s text)
    (hread : Str.simpleStrtoull fuel s 0 = some (grammar 0 text)) :
    memparse fuel s = some
      (asInt (grammar 0 text).1 *
          1024 ^ suffixPower ((text.drop (grammar 0 text).2).headD 0) % 2 ^ 64,
        (memGrammar text).2) := by
  rw [memparse, hread, Option.bind_some, holds_at h (grammar_le 0 text), Option.map_some, memGrammar]
  exact congrArg some (suffix_eq _ (asInt_lt _))

/-- `memparse` follows the grammar on the numbers that fit an `int`, where the number is read by
it. -/
theorem memparse_iff (h : Holds s text)
    (hread : Str.simpleStrtoull fuel s 0 = some (grammar 0 text)) :
    memparse fuel s = some (memGrammar text) ↔
      Narrow (grammar 0 text).1 (suffixPower ((text.drop (grammar 0 text).2).headD 0)) := by
  have hvalue : (grammar 0 text).1 < 2 ^ 64 := Nat.mod_lt _ (by decide)
  rw [memparse_eq h hread, Option.some_inj, ← narrow_iff hvalue (suffixPower_le _)]
  exact ⟨fun heq => congrArg Prod.fst heq, fun heq => Prod.ext heq rfl⟩

/-- The second digit of a hex number counts unless it is zero or cut off. -/
theorem second_digit (hd : isXdigit d = true) (rest : List UInt8) :
    (digitValue d * 16 ^ (digitRun 16 rest).length + valueOf 16 (digitRun 16 rest)) % 2 ^ 64 =
        valueOf 16 (digitRun 16 rest) % 2 ^ 64 ↔
      digitValue d = 0 ∨ 16 ≤ (digitRun 16 rest).length := by
  have hlt := digitValue_lt d hd
  generalize valueOf 16 (digitRun 16 rest) = v
  generalize (digitRun 16 rest).length = n
  generalize digitValue d = x at hlt
  have hmod : (x * 16 ^ n + v) % 2 ^ 64 = v % 2 ^ 64 ↔ 2 ^ 64 ∣ x * 16 ^ n := by
    rw [← Nat.modEq_zero_iff_dvd]
    exact ⟨fun h => Nat.ModEq.add_right_cancel' v (h.trans (by rw [Nat.zero_add])),
      fun h => (h.add_right v).trans (by rw [Nat.zero_add])⟩
  have hword : 2 ^ 64 = 16 ^ 16 := by decide
  rw [hmod, hword]
  constructor
  · intro hdvd
    by_contra hnone
    have hx : x ≠ 0 := fun h => hnone (.inl h)
    have hn : n < 16 := not_le.mp fun h => hnone (.inr h)
    have hsplit : 16 ^ 16 = 16 * (16 ^ (15 - n) * 16 ^ n) := by
      rw [← pow_add, ← pow_succ']
      congr 1
      omega
    have hle : 16 * (16 ^ (15 - n) * 16 ^ n) ≤ x * 16 ^ n :=
      hsplit ▸ Nat.le_of_dvd (Nat.mul_pos (Nat.pos_of_ne_zero hx) (by positivity)) hdvd
    have hone : 16 ^ n ≤ 16 ^ (15 - n) * 16 ^ n := Nat.le_mul_of_pos_left _ (by positivity)
    have hless : x * 16 ^ n < 16 * 16 ^ n := Nat.mul_lt_mul_of_pos_right hlt (by positivity)
    omega
  · rintro (rfl | hn)
    · rw [Nat.zero_mul]
      exact dvd_zero _
    · exact (pow_dvd_pow 16 hn).mul_left x

/-- What is read of a hex number with a leading zero and a digit behind it. -/
theorem readAt_second (hhead : text.headD 0 = code '0') (hx : isXdigit (text.tail.headD 0) = true) :
    2 ≤ text.length ∧ readAt 16 0 text =
      ((digitValue (text.tail.headD 0) * 16 ^ (digitRun 16 (text.drop 2)).length +
        valueOf 16 (digitRun 16 (text.drop 2))) % 2 ^ 64, 2 + (digitRun 16 (text.drop 2)).length) := by
  have htext := eq_zero_cons hhead
  cases htail : text.tail with
  | nil =>
    rw [htail, List.headD_nil, isXdigit_x.2.2] at hx
    cases hx
  | cons d rest =>
    rw [htail, List.headD_cons] at hx
    rw [htail] at htext
    rw [htext, readAt, List.drop_zero, digitRun_cons zero_digit.1 (by decide),
      digitRun_cons hx (digitValue_lt d hx), valueOf_cons, valueOf_cons, zero_digit.2, Nat.zero_mul,
      Nat.zero_add, Nat.zero_add]
    refine ⟨?_, ?_⟩
    · rw [List.length_cons, List.length_cons]
      omega
    · rw [List.length_cons, List.length_cons, Nat.add_assoc, Nat.add_comm _ (1 + 1)]
      rfl

/-- The copy of `lib/string.c` where it skips nothing. -/
theorem str_plain (h : Holds s text) (hskip : ¬(base = 16 ∧ text.headD 0 = code '0'))
    (hfuel : text.length < fuel) :
    Str.simpleStrtoull fuel s base = some
      (readAt (if base = 0 then if text.headD 0 = code '0' then 8 else 10 else base) 0 text) := by
  rw [str_eq h, if_neg hskip, strtoullLoop_start h _ (Nat.zero_le _) hfuel]

/-- The copy of `lib/string.c` where it skips two bytes. -/
theorem str_skip (h : Holds s text) (hhead : text.headD 0 = code '0') (fuel : ℕ) :
    Str.simpleStrtoull fuel s 16 = strtoullLoop s 16 fuel 2 0 := by
  have hbase : ¬16 = 0 := by decide
  rw [str_eq h, if_neg hbase, if_pos ⟨rfl, hhead⟩]

/-- A string that the condition allows is parsed by the grammar. -/
theorem parsed_of_agreed (h : Holds s text) (hbase : base = 0 ∨ base = 8 ∨ base = 10 ∨ base = 16)
    (hagreed : Agreed text base) : Parsed s text base := by
  have hstring : ∀ fuel, text.length < fuel →
      Str.simpleStrtoull fuel s base = some (grammar base text) ∧
        Vsprintf.simpleStrtoull fuel s base = some (grammar base text) := by
    intro fuel hfuel
    by_cases hhead : text.headD 0 = code '0'
    · rcases Nat.eq_zero_or_pos base with rfl | hpos
      · rw [str_plain h (fun hc => absurd hc.1 (by decide)) hfuel, vsprintf_eq h 0 hfuel, if_pos rfl,
          if_pos rfl, if_pos hhead, if_pos hhead, grammar_octal hhead (hagreed.plain rfl hhead), readAt,
          readAt, List.drop_zero, hagreed.same rfl hhead, hagreed.octal rfl hhead]
        exact ⟨rfl, rfl⟩
      · by_cases hsixteen : base = 16
        · subst hsixteen
          have hx := hagreed.second rfl hhead
          obtain ⟨hlen, hread⟩ := readAt_second hhead hx
          rw [str_skip h hhead, strtoullLoop_start h 16 hlen hfuel,
            vsprintf_eq h 16 hfuel, if_neg (by decide),
            grammar_plain (by decide) (fun _ => startsHex_of_digit hx), hread, readAt,
            (second_digit hx _).mpr (hagreed.cut rfl hhead)]
          exact ⟨rfl, rfl⟩
        · rw [str_plain h (fun hc => hsixteen hc.1) hfuel, vsprintf_eq h base hfuel,
            if_neg hpos.ne', if_neg hpos.ne', grammar_plain hpos.ne' (fun hc => absurd hc hsixteen)]
          exact ⟨rfl, rfl⟩
    · rw [str_plain h (fun hc => hhead hc.2) hfuel, vsprintf_eq h base hfuel, grammar_nonzero hhead,
        if_neg hhead, if_neg hhead]
      exact ⟨rfl, rfl⟩
  refine ⟨fun fuel hfuel => (hstring fuel hfuel).1, fun fuel hfuel => (hstring fuel hfuel).2,
    fun fuel hzero hfuel => ?_⟩
  subst hzero
  exact (memparse_iff h (hstring fuel hfuel).1).mpr (hagreed.narrow rfl)

/-- A number without a base that both copies read by the grammar has no hex prefix and is octal. -/
theorem octal_of_parsed (h : Holds s text) (hparsed : Parsed s text 0)
    (hhead : text.headD 0 = code '0') :
    hexPrefix text = false ∧ digitRun 16 text = digitRun 8 text ∧
      valueOf 16 (digitRun 16 text) % 2 ^ 64 = valueOf 8 (digitRun 8 text) % 2 ^ 64 := by
  have hstring := hparsed.string _ (Nat.lt_succ_self _)
  have hvsprintf := hparsed.vsprintf _ (Nat.lt_succ_self _)
  rw [str_plain h (fun hc => absurd hc.1 (by decide)) (Nat.lt_succ_self _), if_pos rfl, if_pos hhead,
    Option.some.injEq] at hstring
  rw [vsprintf_eq h 0 (Nat.lt_succ_self _), if_pos rfl, if_pos hhead, ← hstring,
    Option.some.injEq, readAt, readAt, List.drop_zero, Prod.mk.injEq] at hvsprintf
  refine ⟨?_, digitRun_eq_of_length (Nat.add_left_cancel hvsprintf.2), hvsprintf.1⟩
  rw [Bool.eq_false_iff]
  intro hhex
  have hstarts := (Bool.and_eq_true_iff.mp hhex).1
  have hguess : grammarBase 0 text = 16 := by rw [grammarBase, if_pos rfl, if_pos hhex]
  have hone : (readAt 8 0 text).2 = 1 := by
    refine readAt_zero hhead (by decide) ?_
    rcases ((startsHex_iff text).mp hstarts).2 with hx | hx
    · rw [hx, isXdigit_x.1]
    · rw [hx, isXdigit_x.2.1]
  rw [hstring, grammar_eq, hguess, skipped, if_pos ⟨rfl, hstarts⟩, readAt] at hone
  dsimp only at hone
  omega

/-- A hex number that both copies read by the grammar has a digit behind its leading zero that does
not count. -/
theorem second_of_parsed (h : Holds s text) (hparsed : Parsed s text 16)
    (hhead : text.headD 0 = code '0') :
    isXdigit (text.tail.headD 0) = true ∧
      (digitValue (text.tail.headD 0) = 0 ∨ 16 ≤ (digitRun 16 (text.drop 2)).length) := by
  have hstring := hparsed.string _ (Nat.lt_succ_self _)
  have hvsprintf := hparsed.vsprintf _ (Nat.lt_succ_self _)
  rw [str_skip h hhead] at hstring
  rw [vsprintf_eq h 16 (Nat.lt_succ_self _), if_neg (by decide), Option.some.injEq] at hvsprintf
  have hx : isXdigit (text.tail.headD 0) = true := by
    by_contra hnot
    rw [Bool.not_eq_true] at hnot
    have hend := strtoullLoop_end hstring
    rw [← hvsprintf, readAt_zero hhead (by decide) hnot] at hend
    omega
  refine ⟨hx, ?_⟩
  obtain ⟨hlen, hread⟩ := readAt_second hhead hx
  rw [strtoullLoop_start h 16 hlen (Nat.lt_succ_self _), ← hvsprintf, hread, Option.some.injEq, readAt,
    Prod.mk.injEq] at hstring
  exact (second_digit hx _).mp hstring.1.symm

/-- Both copies and `memparse` follow the grammar on exactly the strings that the condition allows. -/
theorem parsed_iff (s : Chars) (text : List UInt8) (base : ℕ) (h : Holds s text)
    (hbase : base = 0 ∨ base = 8 ∨ base = 10 ∨ base = 16) :
    Parsed s text base ↔ Agreed text base := by
  refine ⟨fun hparsed => ⟨?_, ?_, ?_, ?_, ?_, ?_⟩, parsed_of_agreed h hbase⟩
  · rintro rfl hhead
    exact (octal_of_parsed h hparsed hhead).1
  · rintro rfl hhead
    exact (octal_of_parsed h hparsed hhead).2.1
  · rintro rfl hhead
    exact (octal_of_parsed h hparsed hhead).2.2
  · rintro rfl hhead
    exact (second_of_parsed h hparsed hhead).1
  · rintro rfl hhead
    exact (second_of_parsed h hparsed hhead).2
  · rintro rfl
    have hfuel : text.length < text.length + 1 := Nat.lt_succ_self _
    exact (memparse_iff h (hparsed.string _ hfuel)).mp (hparsed.memparse _ rfl hfuel)

/-- A string literal is held by its own memory. -/
theorem holds_cstring (h : ∀ c ∈ text, c ≠ 0) : Holds (cstring text) text := by
  refine ⟨fun i hi => ?_, ?_, h⟩
  · rw [cstring, List.getElem?_append_left hi, List.getElem?_eq_getElem hi]
    rfl
  · rw [cstring, List.getElem?_append_right le_rfl, Nat.sub_self]
    rfl

/-- The string `64M`. -/
def megabytes : List UInt8 := [code '6', code '4', code 'M']

/-- It is parsed by the grammar, as the condition says. -/
theorem parsed_iff_megabytes : Parsed (cstring megabytes) megabytes 0 := by
  refine (parsed_iff (cstring megabytes) megabytes 0 (holds_cstring (by decide +kernel))
    (.inl rfl)).mpr ⟨fun _ hhead => ?_, fun _ hhead => ?_, fun _ hhead => ?_, fun hbase => ?_,
      fun hbase => ?_, fun _ => by decide⟩
  · exact absurd hhead (by decide)
  · exact absurd hhead (by decide)
  · exact absurd hhead (by decide)
  · exact absurd hbase (by decide)
  · exact absurd hbase (by decide)

/-- The string `0x10`. -/
def hexNumber : List UInt8 := [code '0', code 'x', code '1', code '0']

/-- The string `2147483648`. -/
def firstWide : List UInt8 := "2147483648".toList.map code

/-- Without a base one copy reads the zero of it as an octal number, the other one as a hex number,
and neither reads sixteen. The number behind the largest `int` is read as it should be, but
`memparse` makes a negative `int` of it. -/
theorem hexNumber_counterexample :
    Holds (cstring hexNumber) hexNumber ∧ grammar 0 hexNumber = (16, 4) ∧
      Str.simpleStrtoull 5 (cstring hexNumber) 0 = some (0, 1) ∧
      Vsprintf.simpleStrtoull 5 (cstring hexNumber) 0 = some (0, 1) ∧
      memparse 5 (cstring hexNumber) = some (0, 1) ∧
      ¬Parsed (cstring hexNumber) hexNumber 0 ∧
      memGrammar firstWide = (2147483648, 10) ∧
      memparse 11 (cstring firstWide) = some (0xFFFFFFFF80000000, 10) := by
  have hgrammar : grammar 0 hexNumber = (16, 4) := by decide
  have hstring : Str.simpleStrtoull 5 (cstring hexNumber) 0 = some (0, 1) := by decide
  refine ⟨holds_cstring (by decide +kernel), hgrammar, hstring, by decide +kernel, by decide +kernel,
    fun h => ?_, by decide +kernel, by decide +kernel⟩
  have hread := h.string 5 (by decide)
  rw [hstring, hgrammar] at hread
  exact absurd hread (by decide)

end BiscuitOS.StrtoullContract
