import BiscuitOS.ParamsScan

/-!
# One option

`next_arg` on the rest of a line: the option ends at the first white space
outside quotes or with the line, and the line is only changed inside it. An
option in one of the four written forms gives its name and its value, with
the quotes cut off.
-/

namespace BiscuitOS.ParamsArg

open MachineWord ParamsModel ParamsScan

/-- The option ends here: the line ends, or white space follows. -/
def Ends (rest : List UInt8) : Prop := ∀ c ∈ rest.head?, isSpace c = true

/-- The line with one more terminator. -/
def put (l : Line) (pos : ℕ) : Line := { l with bytes := Function.update l.bytes pos 0 }

/-- Elsewhere the line is as before. -/
theorem put_bytes_ne {l : Line} {pos i : ℕ} (h : i ≠ pos) : (put l pos).bytes i = l.bytes i :=
  Function.update_of_ne h _ _

/-- The new terminator. -/
theorem put_bytes_self (l : Line) (pos : ℕ) : (put l pos).bytes pos = 0 := Function.update_self ..

/-- The line ends where it did. -/
@[simp] theorem put_last (l : Line) (pos : ℕ) : (put l pos).last = l.last := rfl

/-- A terminator is written in the line. -/
theorem write_zero {l : Line} {pos : ℕ} (h : pos ≤ l.last) : l.write pos 0 = some (put l pos) := if_pos h

/-- The line with the quote at a place cut off. -/
def cut (l : Line) (pos : ℕ) : Line := if l.bytes pos = quote then put l pos else l

/-- Cutting keeps the end of the line. -/
@[simp] theorem cut_last (l : Line) (pos : ℕ) : (cut l pos).last = l.last := by
  rw [cut]
  split <;> rfl

/-- Cutting changes no other place. -/
theorem cut_bytes_ne {l : Line} {pos i : ℕ} (h : i ≠ pos) : (cut l pos).bytes i = l.bytes i := by
  rw [cut]
  split
  · exact put_bytes_ne h
  · rfl

/-- `cutQuote` in the line. -/
theorem cutQuote_eq {l : Line} {pos : ℕ} (h : pos ≤ l.last) : cutQuote l pos = some (cut l pos) := by
  rw [cutQuote, Line.read, if_pos h, Option.bind_some, cut]
  by_cases hq : l.bytes pos = quote
  · rw [if_pos hq, if_pos hq, write_zero h]
  · rw [if_neg hq, if_neg hq]

/-- The line after the value is taken. -/
def valueLine (l : Line) (args i equals : ℕ) (quoted : Bool) : Line :=
  let l1 := put l (args + equals)
  let l2 := if l1.bytes (args + equals + 1) = quote then cut l1 (args + i - 1) else l1
  if quoted then cut l2 (args + i - 1) else l2

/-- Where the value is. -/
def valueStart (l : Line) (args equals : ℕ) : ℕ :=
  if l.bytes (args + equals + 1) = quote then args + equals + 1 + 1 else args + equals + 1

/-- Taking a value keeps the end of the line. -/
@[simp] theorem valueLine_last (l : Line) (args i equals : ℕ) (quoted : Bool) :
    (valueLine l args i equals quoted).last = l.last := by
  dsimp only [valueLine]
  split <;> split <;> simp

/-- Taking a value changes the equals sign and the last byte of the option. -/
theorem valueLine_bytes {l : Line} {args i equals pos : ℕ} {quoted : Bool} (he : pos ≠ args + equals)
    (hi : pos ≠ args + i - 1) : (valueLine l args i equals quoted).bytes pos = l.bytes pos := by
  dsimp only [valueLine]
  split
  · rw [cut_bytes_ne hi]
    split
    · rw [cut_bytes_ne hi, put_bytes_ne he]
    · rw [put_bytes_ne he]
  · split
    · rw [cut_bytes_ne hi, put_bytes_ne he]
    · rw [put_bytes_ne he]

/-- `takeValue` in the line. -/
theorem takeValue_eq {l : Line} {args i equals : ℕ} (quoted : Bool) (he : equals < i) (hi : i < 2 ^ 32)
    (hlast : args + i ≤ l.last) :
    takeValue l args i equals quoted =
      some (valueLine l args i equals quoted, valueStart l args equals) := by
  have hsub : args + wrapSub 32 i 1 = args + i - 1 := by
    rw [wrapSub_of_le hi (by omega)]
    omega
  have hbyte : (put l (args + equals)).bytes (args + equals + 1) = l.bytes (args + equals + 1) :=
    put_bytes_ne (by omega)
  rw [takeValue, write_zero (by omega), Option.bind_some, Line.read, if_pos (by rw [put_last]; omega),
    Option.bind_some, hsub]
  dsimp only [valueLine, valueStart]
  rw [hbyte]
  by_cases hq : l.bytes (args + equals + 1) = quote
  · rw [if_pos hq, if_pos hq, if_pos hq, cutQuote_eq (by rw [put_last]; omega), Option.bind_some]
    cases quoted with
    | true =>
      simp only [if_true]
      rw [cutQuote_eq (by rw [cut_last, put_last]; omega), Option.map_some]
    | false => rfl
  · rw [if_neg hq, if_neg hq, if_neg hq, Option.bind_some]
    cases quoted with
    | true =>
      simp only [if_true]
      rw [cutQuote_eq (by rw [put_last]; omega), Option.map_some]
    | false => rfl

/-- The value starts in the option, or at its end. -/
theorem valueStart_le {l : Line} {args i equals : ℕ} (he : equals < i)
    (hend : l.bytes (args + i) ≠ quote) : valueStart l args equals ≤ args + i := by
  rw [valueStart]
  split
  · rename_i hq
    have hne : equals + 1 ≠ i := by
      rintro rfl
      exact hend hq
    omega
  · omega

/-- White space is no quote. -/
theorem ne_quote_of_isSpace {c : UInt8} (h : isSpace c = true) : c ≠ quote := by
  rintro rfl
  exact absurd h (by decide)

/-- White space is no terminator. -/
theorem ne_zero_of_isSpace {c : UInt8} (h : isSpace c = true) : c ≠ 0 := by
  rintro rfl
  exact absurd h (by decide)

/-- The byte where the option ends is no quote. -/
theorem Ends.ne_quote {l : Line} {pos : ℕ} {rest : List UInt8} (he : Ends rest) (h : Rest l pos rest) :
    l.bytes pos ≠ quote := by
  cases rest with
  | nil =>
    rw [show l.bytes pos = 0 from h.reads.1]
    decide
  | cons c rest =>
    rw [show l.bytes pos = c from h.reads.1]
    exact ne_quote_of_isSpace (he c rfl)

/-- `endArg` terminates the option and goes on behind the white space. -/
theorem endArg_eq {l : Line} {args i fuel : ℕ} {rest : List UInt8} (val : Option ℕ) (h : Rest l (args + i) rest)
    (he : Ends rest) (hf : rest.length < fuel) :
    ∃ next, endArg l args i val fuel = some ⟨put l (args + i), args, val, next⟩ ∧
      Rest (put l (args + i)) next (rest.tail.dropWhile tableSpace) := by
  cases rest with
  | nil =>
    have hput : put l (args + i) = l := by
      have hz : l.bytes (args + i) = 0 := h.reads.1
      rw [put, ← hz, Function.update_eq_self]
    obtain ⟨next, hskip, hnext⟩ := skipSpaces_eq h hf
    refine ⟨next, ?_, ?_⟩
    · rw [endArg, h.read_nil, Option.bind_some, if_neg (by simp), Option.bind_some, hskip, hput]
      rfl
    · rw [hput]
      exact hnext
  | cons c rest =>
    have hc : c ≠ 0 := ne_zero_of_isSpace (he c rfl)
    have htail : Rest (put l (args + i)) (args + i + 1) rest :=
      h.tail.congr rfl fun j hj => put_bytes_ne (by omega)
    rw [List.length_cons] at hf
    obtain ⟨next, hskip, hnext⟩ := @skipSpaces_eq _ _ _ fuel htail (by omega)
    refine ⟨next, ?_, hnext⟩
    rw [endArg, h.read_cons, Option.bind_some, if_pos hc, write_zero h.le_last, Option.map_some,
      Option.bind_some, hskip]
    rfl

/-- One step of the scan. -/
theorem scan_cons {l : Line} {args i equals fuel : ℕ} {inQuote : Bool} {c : UInt8} {t : List UInt8}
    (h : Rest l (args + i) (c :: t)) (hc : c ≠ 0) (hs : (isSpace c && !inQuote) = false)
    (hi : i + 1 < 2 ^ 32) (hf : 0 < fuel) :
    scan l args i equals inQuote fuel =
      scan l args (i + 1) (if equals = 0 ∧ c = equalsSign then i else equals)
        (if c = quote then !inQuote else inQuote) (fuel - 1) := by
  obtain ⟨f, rfl⟩ : ∃ n, fuel = n + 1 := ⟨fuel - 1, by omega⟩
  rw [scan, h.read_cons, Option.bind_some, if_neg hc, hs, if_neg Bool.false_ne_true,
    wrap_of_lt hi, Nat.add_sub_cancel]

/-- The scan ends where the option does. -/
theorem scan_end {l : Line} {args i equals fuel : ℕ} {rest : List UInt8} (h : Rest l (args + i) rest)
    (he : Ends rest) (hf : 0 < fuel) : scan l args i equals false fuel = some (i, equals) := by
  obtain ⟨f, rfl⟩ : ∃ n, fuel = n + 1 := ⟨fuel - 1, by omega⟩
  cases rest with
  | nil => rw [scan, h.read_nil, Option.bind_some, if_pos rfl]
  | cons c rest =>
    have hc := he c rfl
    rw [scan, h.read_cons, Option.bind_some, if_neg (ne_zero_of_isSpace hc), hc, if_pos (by rfl)]

/-- The scan over bytes that neither end the option nor change a quote. -/
theorem scan_run {l : Line} {args : ℕ} {inQuote : Bool} {w rest : List UInt8} {i equals fuel : ℕ}
    (h : Rest l (args + i) (w ++ rest)) (hw : ∀ c ∈ w, c ≠ 0 ∧ c ≠ quote ∧ (isSpace c && !inQuote) = false)
    (he : equals ≠ 0 ∨ equalsSign ∉ w) (hi : i + w.length < 2 ^ 32) (hf : w.length ≤ fuel) :
    scan l args i equals inQuote fuel = scan l args (i + w.length) equals inQuote (fuel - w.length) := by
  induction w generalizing i fuel with
  | nil => rw [List.length_nil, Nat.add_zero, Nat.sub_zero]
  | cons c w ih =>
    obtain ⟨hc, hq, hs⟩ := hw c List.mem_cons_self
    rw [List.length_cons] at hi hf ⊢
    have hequals : ¬(equals = 0 ∧ c = equalsSign) := by
      rintro ⟨h0, rfl⟩
      exact he.elim (fun h => h h0) (fun h => h List.mem_cons_self)
    have he' : equals ≠ 0 ∨ equalsSign ∉ w :=
      he.imp id fun h hm => h (List.mem_cons_of_mem _ hm)
    have hrest : Rest l (args + (i + 1)) (w ++ rest) := h.tail
    rw [scan_cons h hc hs (by omega) (by omega), if_neg hequals, if_neg hq,
      ih hrest (fun d hd => hw d (List.mem_cons_of_mem _ hd)) he' (by omega) (by omega)]
    congr 1 <;> omega

/-- The scan ends on every line. -/
theorem scan_total {l : Line} {args : ℕ} {t : List UInt8} {i equals fuel : ℕ} (inQuote : Bool)
    (h : Rest l (args + i) t) (ht : 0 ∉ t) (he : equals = 0 ∨ equals < i) (hi : i + t.length < 2 ^ 32)
    (hf : t.length < fuel) :
    ∃ w rest e, t = w ++ rest ∧ Ends rest ∧
      scan l args i equals inQuote fuel = some (i + w.length, e) ∧ (e = 0 ∨ e < i + w.length) := by
  obtain ⟨f, rfl⟩ : ∃ n, fuel = n + 1 := ⟨fuel - 1, by omega⟩
  induction t generalizing i equals inQuote f with
  | nil =>
    refine ⟨[], [], equals, rfl, fun c hc => (by cases hc), ?_, he⟩
    rw [scan, h.read_nil, Option.bind_some, if_pos rfl]
    rfl
  | cons c t ih =>
    have hc : c ≠ 0 := fun hc => ht (by rw [hc]; exact List.mem_cons_self)
    have htail : 0 ∉ t := fun hm => ht (List.mem_cons_of_mem _ hm)
    rw [List.length_cons] at hi hf
    by_cases hs : (isSpace c && !inQuote) = true
    · refine ⟨[], c :: t, equals, rfl, ?_, ?_, he⟩
      · rintro d hd
        rw [List.head?_cons, Option.mem_some_iff] at hd
        rw [← hd]
        exact (Bool.and_eq_true_iff.mp hs).1
      · rw [scan, h.read_cons, Option.bind_some, if_neg hc, if_pos hs]
        rfl
    · obtain ⟨g, rfl⟩ : ∃ n, f = n + 1 := ⟨f - 1, by omega⟩
      have hrest : Rest l (args + (i + 1)) t := h.tail
      rw [scan_cons h hc (by simpa using hs) (by omega) (by omega), Nat.add_sub_cancel]
      generalize hequals : (if equals = 0 ∧ c = equalsSign then i else equals) = e'
      have he' : e' = 0 ∨ e' < i + 1 := by
        rw [← hequals]
        split <;> omega
      obtain ⟨w, rest, e, hw, hends, hscan, hle⟩ :=
        ih (if c = quote then !inQuote else inQuote) hrest htail he' (by omega) g (by omega)
      have hlength : i + 1 + w.length = i + (c :: w).length := by
        rw [List.length_cons]
        omega
      rw [hlength] at hscan hle
      exact ⟨c :: w, rest, e, by rw [hw, List.cons_append], hends, hscan, hle⟩

end BiscuitOS.ParamsArg
