import BiscuitOS.ParamsArg

/-!
# The four forms of an option

A bare name, a name with a plain value, with a value in quotes, and in quotes
with its value. `next_arg` on a line that begins with one of them gives the
name and the value, and goes on behind the white space that follows.
-/

namespace BiscuitOS.ParamsOptions

open MachineWord ParamsModel ParamsScan ParamsArg

/-- An option as it is written. -/
inductive Written where
  /-- `name`. -/
  | bare (name : List UInt8)
  /-- `name=value`. -/
  | plain (name value : List UInt8)
  /-- `name="value"`. -/
  | quoted (name value : List UInt8)
  /-- `"name=value"`. -/
  | whole (name value : List UInt8)

namespace Written

/-- The name of the option. -/
def name : Written → List UInt8
  | bare name => name
  | plain name _ => name
  | quoted name _ => name
  | whole name _ => name

/-- The value of the option, if it has one. -/
def value : Written → Option (List UInt8)
  | bare _ => none
  | plain _ value => some value
  | quoted _ value => some value
  | whole _ value => some value

/-- The bytes of the option. -/
def text : Written → List UInt8
  | bare name => name
  | plain name value => name ++ equalsSign :: value
  | quoted name value => name ++ equalsSign :: quote :: (value ++ [quote])
  | whole name value => quote :: (name ++ equalsSign :: (value ++ [quote]))

/-- What the value may hold: white space only where it is quoted, and no quote. -/
def ValueAllowed : Written → Prop
  | bare _ => True
  | plain _ value => ∀ c ∈ value, c ≠ 0 ∧ c ≠ quote ∧ isSpace c = false
  | quoted _ value => ∀ c ∈ value, c ≠ 0 ∧ c ≠ quote
  | whole _ value => ∀ c ∈ value, c ≠ 0 ∧ c ≠ quote

/-- A well formed option. -/
structure WellFormed (o : Written) : Prop where
  /-- The name is not empty. -/
  name_ne_nil : o.name ≠ []
  /-- The name is free of `=`, quotes and white space. -/
  name_free : ∀ c ∈ o.name, c ≠ 0 ∧ c ≠ equalsSign ∧ c ≠ quote ∧ isSpace c = false
  /-- The value. -/
  value_allowed : o.ValueAllowed
  /-- The first byte is not the one that only the table takes for white space. -/
  start : ∀ c ∈ o.text.head?, c ≠ 160

end Written

/-- What `next_arg` has to give: the name, the value, and the rest of the line. -/
structure Delivers (a : Arg) (name : List UInt8) (value : Option (List UInt8)) (rest : List UInt8) :
    Prop where
  /-- `param`. -/
  param : StringIn a.line a.param name
  /-- `val`: `NULL` without a value. -/
  val : match value, a.val with
    | none, none => True
    | some v, some pos => StringIn a.line pos v
    | _, _ => False
  /-- The rest of the line. -/
  next : Rest a.line a.next rest

/-- Bytes before a terminator are a string. -/
theorem stringIn_of {l : Line} {pos : ℕ} {s : List UInt8} (hs : 0 ∉ s) (hr : Reads l.bytes pos s)
    (hz : l.bytes (pos + s.length) = 0) (hlast : pos + s.length ≤ l.last) : StringIn l pos s :=
  ⟨hs, reads_append.mpr ⟨hr, hz, trivial⟩, hlast⟩

/-- `next_arg` without a value. -/
theorem nextArg_bare {l : Line} {args i fuel : ℕ} {first : UInt8} {rest : List UInt8} {quoted : Bool}
    (hread : l.read args = some first) (hfirst : decide (first = quote) = quoted)
    (hscan : scan l (if quoted then args + 1 else args) 0 0 quoted fuel = some (i, 0))
    (hrest : Rest l ((if quoted then args + 1 else args) + i) rest) (he : Ends rest)
    (hf : rest.length < fuel) :
    ∃ a, nextArg l args fuel = some a ∧ a.param = (if quoted then args + 1 else args) ∧
      a.val = none ∧ a.line = put l (a.param + i) ∧ Rest a.line a.next (rest.tail.dropWhile tableSpace) := by
  generalize hargs : (if quoted then args + 1 else args) = args' at hscan hrest ⊢
  obtain ⟨next, hend, hnext⟩ := endArg_eq none hrest he hf
  refine ⟨⟨put l (args' + i), args', none, next⟩, ?_, rfl, rfl, rfl, hnext⟩
  rw [nextArg, hread, Option.bind_some]
  dsimp only
  rw [hfirst, hargs, hscan, Option.bind_some, if_pos rfl, Option.bind_some, hend]

/-- `next_arg` with a value. -/
theorem nextArg_valued {l : Line} {args i equals fuel : ℕ} {first : UInt8} {rest : List UInt8}
    {quoted : Bool} (hread : l.read args = some first) (hfirst : decide (first = quote) = quoted)
    (hscan : scan l (if quoted then args + 1 else args) 0 0 quoted fuel = some (i, equals))
    (hpos : equals ≠ 0) (hlt : equals < i) (hi : i < 2 ^ 32)
    (hrest : Rest l ((if quoted then args + 1 else args) + i) rest) (he : Ends rest)
    (hf : rest.length < fuel) :
    ∃ a, nextArg l args fuel = some a ∧ a.param = (if quoted then args + 1 else args) ∧
      a.val = some (valueStart l a.param equals) ∧
      a.line = put (valueLine l a.param i equals quoted) (a.param + i) ∧
      Rest a.line a.next (rest.tail.dropWhile tableSpace) := by
  generalize hargs : (if quoted then args + 1 else args) = args' at hscan hrest ⊢
  have hvalue : Rest (valueLine l args' i equals quoted) (args' + i) rest :=
    hrest.congr (valueLine_last ..) fun j hj => valueLine_bytes (by omega) (by omega)
  obtain ⟨next, hend, hnext⟩ := endArg_eq (some (valueStart l args' equals)) hvalue he hf
  refine ⟨⟨put (valueLine l args' i equals quoted) (args' + i), args',
    some (valueStart l args' equals), next⟩, ?_, rfl, rfl, rfl, hnext⟩
  rw [nextArg, hread, Option.bind_some]
  dsimp only
  rw [hfirst, hargs, hscan, Option.bind_some, if_neg hpos,
    takeValue_eq quoted hlt hi hrest.le_last, Option.map_some, Option.bind_some, hend]

/-- The name of an option with a value. -/
theorem stringIn_param {l : Line} {pos i : ℕ} {quoted : Bool} {name : List UInt8} (hproper : 0 ∉ name)
    (hr : Reads l.bytes pos name) (hi : name.length < i) (hlast : pos + i ≤ l.last) :
    StringIn (put (valueLine l pos i name.length quoted) (pos + i)) pos name := by
  refine stringIn_of hproper ?_ ?_ (by rw [put_last, valueLine_last]; omega)
  · refine hr.congr fun j hj hlt => ?_
    rw [put_bytes_ne (by omega), valueLine_bytes (by omega) (by omega)]
  · rw [put_bytes_ne (by omega)]
    have hz : (put l (pos + name.length)).bytes (pos + name.length) = 0 := put_bytes_self _ _
    have hcut : ∀ l' : Line, l'.bytes (pos + name.length) = 0 →
        (cut l' (pos + i - 1)).bytes (pos + name.length) = 0 := by
      intro l' hl'
      by_cases hq : l'.bytes (pos + i - 1) = quote
      · by_cases he : pos + name.length = pos + i - 1
        · rw [cut, if_pos hq, he, put_bytes_self]
        · rw [cut_bytes_ne he, hl']
      · rw [cut, if_neg hq, hl']
    dsimp only [valueLine]
    split
    · apply hcut
      split
      · exact hcut _ hz
      · exact hz
    · split
      · exact hcut _ hz
      · exact hz

/-- The quote at the end of the option is cut off. -/
theorem valueLine_closing {l : Line} {args i equals : ℕ} {quoted : Bool} (hlt : equals + 1 < i)
    (hquote : l.bytes (args + i - 1) = quote)
    (h : quoted = true ∨ l.bytes (args + equals + 1) = quote) :
    (valueLine l args i equals quoted).bytes (args + i - 1) = 0 := by
  have hput : (put l (args + equals)).bytes (args + i - 1) = quote := by
    rw [put_bytes_ne (by omega), hquote]
  have hbyte : (put l (args + equals)).bytes (args + equals + 1) = l.bytes (args + equals + 1) :=
    put_bytes_ne (by omega)
  have hcut : ∀ l' : Line, l'.bytes (args + i - 1) = quote ∨ l'.bytes (args + i - 1) = 0 →
      (cut l' (args + i - 1)).bytes (args + i - 1) = 0 := by
    rintro l' (hq | hz)
    · rw [cut, if_pos hq, put_bytes_self]
    · have hne : ¬l'.bytes (args + i - 1) = quote := by
        rw [hz]
        decide
      rw [cut, if_neg hne, hz]
  dsimp only [valueLine]
  rw [hbyte]
  by_cases hfirst : l.bytes (args + equals + 1) = quote
  · rw [if_pos hfirst]
    have hz := hcut _ (Or.inl hput)
    split
    · exact hcut _ (Or.inr hz)
    · exact hz
  · rw [if_neg hfirst, if_pos (h.resolve_right hfirst)]
    exact hcut _ (Or.inl hput)

/-- The scan over the name and the equals sign. -/
theorem scan_name {l : Line} {args fuel : ℕ} {inQuote : Bool} {name t : List UInt8}
    (h : Rest l args (name ++ equalsSign :: t)) (hne : name ≠ [])
    (hfree : ∀ c ∈ name, c ≠ 0 ∧ c ≠ equalsSign ∧ c ≠ quote ∧ isSpace c = false)
    (hi : name.length + 1 < 2 ^ 32) (hf : name.length < fuel) :
    scan l args 0 0 inQuote fuel =
      scan l args (name.length + 1) name.length inQuote (fuel - name.length - 1) := by
  have hrun : ∀ c ∈ name, c ≠ 0 ∧ c ≠ quote ∧ (isSpace c && !inQuote) = false := by
    intro c hc
    obtain ⟨h0, -, hq, hs⟩ := hfree c hc
    exact ⟨h0, hq, by rw [hs, Bool.false_and]⟩
  have hequals : equalsSign ∉ name := fun hm => (hfree _ hm).2.1 rfl
  have hrest : Rest l (args + name.length) (equalsSign :: t) := h.append
  have hpos : 0 < name.length := List.length_pos_of_ne_nil hne
  rw [scan_run (i := 0) h hrun (Or.inr hequals) (by omega) (by omega), Nat.zero_add,
    scan_cons hrest (by decide) (by cases inQuote <;> decide) hi (by omega), if_pos ⟨rfl, rfl⟩,
    if_neg (by decide)]

/-- A name holds no terminator. -/
theorem zero_notMem_of_free {s : List UInt8} (h : ∀ c ∈ s, c ≠ 0) : 0 ∉ s := fun hm => h 0 hm rfl

/-- A bare name. -/
theorem nextArg_name {l : Line} {args fuel : ℕ} {name rest : List UInt8} (hne : name ≠ [])
    (hfree : ∀ c ∈ name, c ≠ 0 ∧ c ≠ equalsSign ∧ c ≠ quote ∧ isSpace c = false)
    (h : Rest l args (name ++ rest)) (he : Ends rest) (hlen : name.length < 2 ^ 32)
    (hf : (name ++ rest).length < fuel) :
    ∃ a, nextArg l args fuel = some a ∧ Delivers a name none (rest.tail.dropWhile tableSpace) := by
  rw [List.length_append] at hf
  obtain ⟨c, s, rfl⟩ := List.exists_cons_of_ne_nil hne
  obtain ⟨-, -, hq, -⟩ := hfree c List.mem_cons_self
  have hrun : ∀ d ∈ c :: s, d ≠ 0 ∧ d ≠ quote ∧ (isSpace d && !false) = false := by
    intro d hd
    obtain ⟨h0, -, hq, hs⟩ := hfree d hd
    exact ⟨h0, hq, by rw [hs, Bool.false_and]⟩
  have hequals : equalsSign ∉ c :: s := fun hm => (hfree _ hm).2.1 rfl
  have hrest : Rest l (args + (c :: s).length) rest := h.append
  have hscan : scan l args 0 0 false fuel = some ((c :: s).length, 0) := by
    rw [scan_run (i := 0) h hrun (Or.inr hequals) (by omega) (by omega), Nat.zero_add,
      scan_end hrest he (by omega)]
  have hfirst : decide (c = quote) = false := decide_eq_false hq
  obtain ⟨a, ha, hparam, hval, hline, hr⟩ := nextArg_bare h.read_cons hfirst hscan hrest he (by omega)
  rw [if_neg Bool.false_ne_true] at hparam
  rw [hparam] at hline
  have hreads : Reads l.bytes args (c :: s) := by
    have hr := h.reads
    rw [List.append_assoc] at hr
    exact (reads_append.mp hr).1
  refine ⟨a, ha, ?_, by rw [hval]; trivial, hr⟩
  rw [hparam, hline]
  refine stringIn_of (zero_notMem_of_free fun d hd => (hfree d hd).1) ?_ ?_ hrest.le_last
  · exact hreads.congr fun j _ hj => put_bytes_ne (by omega)
  · exact put_bytes_self _ _

/-- The name, and what stands behind the equals sign. -/
theorem reads_value {l : Line} {pos : ℕ} {name v t : List UInt8}
    (h : Rest l pos (name ++ equalsSign :: (v ++ t))) :
    Reads l.bytes pos name ∧ Reads l.bytes (pos + name.length + 1) v ∧
      Rest l (pos + (name.length + 1 + v.length)) t := by
  have hequals : Rest l (pos + name.length) (equalsSign :: (v ++ t)) := h.append
  have hr := h.reads
  rw [List.append_assoc] at hr
  have hv := hequals.tail.reads
  rw [List.append_assoc] at hv
  have hrest : Rest l (pos + name.length + 1 + v.length) t := hequals.tail.append
  rw [show pos + (name.length + 1 + v.length) = pos + name.length + 1 + v.length by omega]
  exact ⟨(reads_append.mp hr).1, (reads_append.mp hv).1, hrest⟩

/-- A name with a plain value. -/
theorem nextArg_plain {l : Line} {args fuel : ℕ} {name v rest : List UInt8} (hne : name ≠ [])
    (hfree : ∀ c ∈ name, c ≠ 0 ∧ c ≠ equalsSign ∧ c ≠ quote ∧ isSpace c = false)
    (hv : ∀ c ∈ v, c ≠ 0 ∧ c ≠ quote ∧ isSpace c = false)
    (h : Rest l args (name ++ equalsSign :: (v ++ rest))) (he : Ends rest)
    (hlen : name.length + 1 + v.length < 2 ^ 32)
    (hf : (name ++ equalsSign :: (v ++ rest)).length < fuel) :
    ∃ a, nextArg l args fuel = some a ∧ Delivers a name (some v) (rest.tail.dropWhile tableSpace) := by
  simp only [List.length_append, List.length_cons] at hf
  have hpos : 0 < name.length := List.length_pos_of_ne_nil hne
  obtain ⟨hrname, hrv, hrest⟩ := reads_value h
  have hequals : Rest l (args + (name.length + 1)) (v ++ rest) := Rest.tail (Rest.append h)
  have hrun : ∀ d ∈ v, d ≠ 0 ∧ d ≠ quote ∧ (isSpace d && !false) = false := by
    intro d hd
    obtain ⟨h0, hq, hs⟩ := hv d hd
    exact ⟨h0, hq, by rw [hs, Bool.false_and]⟩
  have hscan : scan l args 0 0 false fuel = some (name.length + 1 + v.length, name.length) := by
    rw [scan_name h hne hfree (by omega) (by omega),
      scan_run hequals hrun (Or.inl (by omega)) (by omega) (by omega), scan_end hrest he (by omega)]
  have hbyte : l.bytes (args + name.length + 1) ≠ quote := by
    cases v with
    | nil => exact he.ne_quote hrest
    | cons d v =>
      rw [show l.bytes (args + name.length + 1) = d from hrv.1]
      exact (hv d List.mem_cons_self).2.1
  obtain ⟨c, s, rfl⟩ := List.exists_cons_of_ne_nil hne
  obtain ⟨-, -, hq, -⟩ := hfree c List.mem_cons_self
  have hfirst : decide (c = quote) = false := decide_eq_false hq
  obtain ⟨a, ha, hparam, hval, hline, hr⟩ :=
    nextArg_valued h.read_cons hfirst hscan (by omega) (by omega) hlen hrest he (by omega)
  rw [if_neg Bool.false_ne_true] at hparam
  rw [hparam] at hval hline
  have hlast := hrest.le_last
  refine ⟨a, ha, ?_, ?_, hr⟩
  · rw [hparam, hline]
    exact stringIn_param (zero_notMem_of_free fun d hd => (hfree d hd).1) hrname (by omega) hlast
  · rw [hval, valueStart, if_neg hbyte, hline]
    refine stringIn_of (zero_notMem_of_free fun d hd => (hv d hd).1) ?_ ?_ ?_
    · refine hrv.congr fun j hj hlt => ?_
      have hvl : valueLine l args ((c :: s).length + 1 + v.length) (c :: s).length false =
          put l (args + (c :: s).length) := by
        dsimp only [valueLine]
        rw [put_bytes_ne (by omega), if_neg hbyte, if_neg Bool.false_ne_true]
      rw [put_bytes_ne (by omega), hvl, put_bytes_ne (by omega)]
    · rw [show args + (c :: s).length + 1 + v.length = args + ((c :: s).length + 1 + v.length) by omega,
        put_bytes_self]
    · rw [put_last, valueLine_last]
      omega

/-- The scan over a value in quotes, up to the end of the option. -/
theorem scan_quoted {l : Line} {args i equals fuel : ℕ} {v rest : List UInt8}
    (h : Rest l (args + i) (v ++ quote :: rest)) (hv : ∀ c ∈ v, c ≠ 0 ∧ c ≠ quote) (he : Ends rest)
    (hpos : equals ≠ 0) (hi : i + v.length + 1 < 2 ^ 32) (hf : v.length + 1 < fuel) :
    scan l args i equals true fuel = some (i + v.length + 1, equals) := by
  have hrun : ∀ d ∈ v, d ≠ 0 ∧ d ≠ quote ∧ (isSpace d && !true) = false := by
    intro d hd
    exact ⟨(hv d hd).1, (hv d hd).2, Bool.and_false _⟩
  have hclose : Rest l (args + (i + v.length)) (quote :: rest) := by
    rw [← Nat.add_assoc]
    exact h.append
  have hrest : Rest l (args + (i + v.length + 1)) rest := hclose.tail
  rw [scan_run h hrun (Or.inl hpos) (by omega) (by omega),
    scan_cons hclose (by decide) (by decide) hi (by omega), if_neg (fun hc => hpos hc.1), if_pos rfl,
    Bool.not_true, scan_end hrest he (by omega)]

/-- A name with a value in quotes. -/
theorem nextArg_quoted {l : Line} {args fuel : ℕ} {name v rest : List UInt8} (hne : name ≠ [])
    (hfree : ∀ c ∈ name, c ≠ 0 ∧ c ≠ equalsSign ∧ c ≠ quote ∧ isSpace c = false)
    (hv : ∀ c ∈ v, c ≠ 0 ∧ c ≠ quote)
    (h : Rest l args (name ++ equalsSign :: (quote :: v ++ quote :: rest))) (he : Ends rest)
    (hlen : name.length + 1 + (v.length + 2) < 2 ^ 32)
    (hf : (name ++ equalsSign :: (quote :: v ++ quote :: rest)).length < fuel) :
    ∃ a, nextArg l args fuel = some a ∧ Delivers a name (some v) (rest.tail.dropWhile tableSpace) := by
  simp only [List.length_append, List.length_cons] at hf
  have hpos : 0 < name.length := List.length_pos_of_ne_nil hne
  obtain ⟨hrname, hrv, hclose⟩ := reads_value h
  rw [List.length_cons] at hclose
  have hopen : Rest l (args + (name.length + 1)) (quote :: (v ++ quote :: rest)) :=
    Rest.tail (Rest.append h)
  have hvalue : Rest l (args + (name.length + 1 + 1)) (v ++ quote :: rest) := hopen.tail
  have hrest : Rest l (args + (name.length + 1 + (v.length + 2))) rest := hclose.tail
  have hscan : scan l args 0 0 false fuel = some (name.length + 1 + (v.length + 2), name.length) := by
    rw [scan_name h hne hfree (by omega) (by omega),
      scan_cons hopen (by decide) (by decide) (by omega) (by omega), if_neg (fun hc => by omega),
      if_pos rfl, Bool.not_false,
      scan_quoted hvalue hv he (by omega) (by omega) (by omega)]
    congr 2
    omega
  obtain ⟨c, s, rfl⟩ := List.exists_cons_of_ne_nil hne
  obtain ⟨-, -, hq, -⟩ := hfree c List.mem_cons_self
  have hfirst : decide (c = quote) = false := decide_eq_false hq
  obtain ⟨a, ha, hparam, hval, hline, hr⟩ :=
    nextArg_valued h.read_cons hfirst hscan (by omega) (by omega) hlen hrest he (by omega)
  rw [if_neg Bool.false_ne_true] at hparam
  rw [hparam] at hval hline
  have hlast := hrest.le_last
  have hquote : l.bytes (args + ((c :: s).length + 1 + (v.length + 2)) - 1) = quote := hclose.reads.1
  refine ⟨a, ha, ?_, ?_, hr⟩
  · rw [hparam, hline]
    exact stringIn_param (zero_notMem_of_free fun d hd => (hfree d hd).1) hrname (by omega) hlast
  · rw [hval, valueStart, if_pos hrv.1, hline]
    refine stringIn_of (zero_notMem_of_free fun d hd => (hv d hd).1) ?_ ?_ ?_
    · refine hrv.2.congr fun j hj hlt => ?_
      rw [put_bytes_ne (by omega), valueLine_bytes (by omega) (by omega)]
    · rw [show args + (c :: s).length + 1 + 1 + v.length =
        args + ((c :: s).length + 1 + (v.length + 2)) - 1 by omega, put_bytes_ne (by omega)]
      exact valueLine_closing (by omega) hquote (Or.inr hrv.1)
    · rw [put_last, valueLine_last]
      omega

/-- A name with its value, both in quotes. -/
theorem nextArg_whole {l : Line} {args fuel : ℕ} {name v rest : List UInt8} (hne : name ≠ [])
    (hfree : ∀ c ∈ name, c ≠ 0 ∧ c ≠ equalsSign ∧ c ≠ quote ∧ isSpace c = false)
    (hv : ∀ c ∈ v, c ≠ 0 ∧ c ≠ quote)
    (h : Rest l args (quote :: (name ++ equalsSign :: (v ++ quote :: rest)))) (he : Ends rest)
    (hlen : name.length + 1 + (v.length + 1) < 2 ^ 32)
    (hf : (quote :: (name ++ equalsSign :: (v ++ quote :: rest))).length < fuel) :
    ∃ a, nextArg l args fuel = some a ∧ Delivers a name (some v) (rest.tail.dropWhile tableSpace) := by
  simp only [List.length_append, List.length_cons] at hf
  have hpos : 0 < name.length := List.length_pos_of_ne_nil hne
  have hname := h.tail
  obtain ⟨hrname, hrv, hclose⟩ := reads_value hname
  have hopen : Rest l (args + 1 + (name.length + 1)) (v ++ quote :: rest) :=
    Rest.tail (Rest.append hname)
  have hrest : Rest l (args + 1 + (name.length + 1 + (v.length + 1))) rest := hclose.tail
  have hscan : scan l (if true = true then args + 1 else args) 0 0 true fuel =
      some (name.length + 1 + (v.length + 1), name.length) := by
    rw [if_pos rfl, scan_name hname hne hfree (by omega) (by omega),
      scan_quoted hopen hv he (by omega) (by omega) (by omega)]
    rfl
  have hfirst : decide (quote = quote) = true := decide_eq_true rfl
  obtain ⟨a, ha, hparam, hval, hline, hr⟩ :=
    nextArg_valued h.read_cons hfirst hscan (by omega) (by omega) hlen hrest he (by omega)
  rw [if_pos rfl] at hparam
  rw [hparam] at hval hline
  have hlast := hrest.le_last
  have hquote : l.bytes (args + 1 + (name.length + 1 + (v.length + 1)) - 1) = quote := hclose.reads.1
  refine ⟨a, ha, ?_, ?_, hr⟩
  · rw [hparam, hline]
    exact stringIn_param (zero_notMem_of_free fun d hd => (hfree d hd).1) hrname (by omega) hlast
  · rw [hval, hline, valueStart]
    cases v with
    | nil =>
      have hbyte : l.bytes (args + 1 + name.length + 1) = quote := hquote
      rw [if_pos hbyte]
      exact stringIn_of List.not_mem_nil trivial (put_bytes_self _ _)
        (by rw [put_last, valueLine_last]; exact hlast)
    | cons d v =>
      have hbyte : l.bytes (args + 1 + name.length + 1) ≠ quote := by
        rw [show l.bytes (args + 1 + name.length + 1) = d from hrv.1]
        exact (hv d List.mem_cons_self).2
      rw [if_neg hbyte]
      refine stringIn_of (zero_notMem_of_free fun e he => (hv e he).1) ?_ ?_ ?_
      · refine hrv.congr fun j hj hlt => ?_
        rw [put_bytes_ne (by omega), valueLine_bytes (by omega) (by omega)]
      · rw [show args + 1 + name.length + 1 + (d :: v).length =
          args + 1 + (name.length + 1 + ((d :: v).length + 1)) - 1 by omega, put_bytes_ne (by omega)]
        rw [List.length_cons] at hquote ⊢
        exact valueLine_closing (by omega) hquote (Or.inl rfl)
      · rw [put_last, valueLine_last]
        omega

/-- `next_arg` on any line that has not ended: it takes at least one byte, and the name and the value
are in the line. -/
theorem nextArg_total {l : Line} {args fuel : ℕ} {c : UInt8} {t : List UInt8} (h : Rest l args (c :: t))
    (ht : 0 ∉ c :: t) (hlen : (c :: t).length < 2 ^ 32) (hf : (c :: t).length < fuel) :
    ∃ a t', nextArg l args fuel = some a ∧ Rest a.line a.next t' ∧ 0 ∉ t' ∧ t'.length ≤ t.length ∧
      a.param ≤ l.last ∧ ∀ v, a.val = some v → v ≤ l.last := by
  rw [List.length_cons] at hlen hf
  have htail : 0 ∉ t := fun hm => ht (List.mem_cons_of_mem _ hm)
  obtain ⟨quoted, hquoted⟩ : ∃ q, decide (c = quote) = q := ⟨_, rfl⟩
  obtain ⟨s, hs, hs0, hslen⟩ : ∃ s, Rest l (if quoted then args + 1 else args) s ∧ 0 ∉ s ∧
      s.length ≤ t.length + 1 := by
    cases quoted with
    | true => exact ⟨t, h.tail, htail, by omega⟩
    | false => exact ⟨c :: t, h, ht, by rw [List.length_cons]⟩
  obtain ⟨w, rest, e, hw, hends, hscan, hle⟩ := scan_total (i := 0) quoted hs hs0 (Or.inl rfl)
    (by omega) (show s.length < fuel by omega)
  rw [Nat.zero_add] at hscan hle
  rw [hw] at hs
  have hrest := hs.append
  have hlast := hrest.le_last
  have hwlen : w.length + rest.length = s.length := by rw [hw, List.length_append]
  have hdrop : (rest.tail.dropWhile tableSpace).Sublist rest.tail := List.dropWhile_sublist _
  have hshort : (rest.tail.dropWhile tableSpace).length ≤ t.length := by
    have h1 := hdrop.length_le
    rw [List.length_tail] at h1
    omega
  have hzero : 0 ∉ rest.tail.dropWhile tableSpace := by
    intro hm
    refine hs0 ?_
    rw [hw]
    exact List.mem_append_right _ (List.mem_of_mem_tail (hdrop.subset hm))
  by_cases he : e = 0
  · rw [he] at hscan
    obtain ⟨a, ha, hparam, hval, -, hr⟩ := nextArg_bare h.read_cons hquoted hscan hrest hends (by omega)
    refine ⟨a, _, ha, hr, hzero, hshort, by omega, ?_⟩
    intro v hv
    rw [hval] at hv
    cases hv
  · have hlt := hle.resolve_left he
    obtain ⟨a, ha, hparam, hval, -, hr⟩ :=
      nextArg_valued h.read_cons hquoted hscan he hlt (by omega) hrest hends (by omega)
    refine ⟨a, _, ha, hr, hzero, hshort, by omega, ?_⟩
    intro v hv
    rw [hval, Option.some_inj] at hv
    have hstart := valueStart_le hlt (hends.ne_quote hrest)
    rw [hparam] at hv
    omega

/-- `next_arg` on an option in one of the four forms. -/
theorem nextArg_written {l : Line} {args fuel : ℕ} {o : Written} {rest : List UInt8} (hw : o.WellFormed)
    (h : Rest l args (o.text ++ rest)) (he : Ends rest) (hlen : o.text.length < 2 ^ 32)
    (hf : (o.text ++ rest).length < fuel) :
    ∃ a, nextArg l args fuel = some a ∧ Delivers a o.name o.value (rest.tail.dropWhile tableSpace) := by
  cases o with
  | bare name => exact nextArg_name hw.name_ne_nil hw.name_free h he hlen hf
  | plain name v =>
    have htext : (Written.plain name v).text ++ rest = name ++ equalsSign :: (v ++ rest) := by
      simp [Written.text]
    simp only [Written.text, List.length_append, List.length_cons] at hlen
    have hbound : name.length + 1 + v.length < 2 ^ 32 := by omega
    rw [htext] at h hf
    exact nextArg_plain hw.name_ne_nil hw.name_free hw.value_allowed h he hbound hf
  | quoted name v =>
    have htext : (Written.quoted name v).text ++ rest =
        name ++ equalsSign :: (quote :: v ++ quote :: rest) := by
      simp [Written.text]
    simp only [Written.text, List.length_append, List.length_cons, List.length_nil] at hlen
    have hbound : name.length + 1 + (v.length + 2) < 2 ^ 32 := by omega
    rw [htext] at h hf
    exact nextArg_quoted hw.name_ne_nil hw.name_free hw.value_allowed h he hbound hf
  | whole name v =>
    have htext : (Written.whole name v).text ++ rest =
        quote :: (name ++ equalsSign :: (v ++ quote :: rest)) := by
      simp [Written.text]
    simp only [Written.text, List.length_append, List.length_cons, List.length_nil] at hlen
    have hbound : name.length + 1 + (v.length + 1) < 2 ^ 32 := by omega
    rw [htext] at h hf
    exact nextArg_whole hw.name_ne_nil hw.name_free hw.value_allowed h he hbound hf

end BiscuitOS.ParamsOptions
