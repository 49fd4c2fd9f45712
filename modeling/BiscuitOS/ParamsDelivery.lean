import BiscuitOS.ParamsOptions

/-!
# Delivery of the options

What the options of a line lead to: each is given to the first parameter of
its name, or to the function for unknown ones, until one result is not zero.
`parse_args` does just that on a line whose options are joined by white space,
and ends on every line that its indices reach.
-/

namespace BiscuitOS.ParamsDelivery

open MachineWord ParamsModel ParamsScan ParamsArg ParamsOptions

variable {σ : Type*}

/-- One option: the result, and the world after it. -/
def deliver (params : List (KernelParam σ))
    (unknown : Option (List UInt8 → Option (List UInt8) → σ → ℤ × σ)) (name : List UInt8)
    (value : Option (List UInt8)) (world : σ) : ℤ × σ :=
  match params.find? fun kp => name.map dash2underscore = kp.name with
  | some kp => if value = none ∧ kp.isBool = false then (-einval, world) else kp.set value world
  | none =>
    match unknown with
    | some f => f name value world
    | none => (-enoent, world)

/-- The options in order, up to the first result that is not zero. -/
def deliverAll (params : List (KernelParam σ))
    (unknown : Option (List UInt8 → Option (List UInt8) → σ → ℤ × σ)) : List Written → σ → ℤ × σ
  | [], world => (0, world)
  | o :: options, world =>
    let r := deliver params unknown o.name o.value world
    if r.1 = 0 then deliverAll params unknown options r.2 else r

/-- The results of the options that are delivered. -/
def results (params : List (KernelParam σ))
    (unknown : Option (List UInt8 → Option (List UInt8) → σ → ℤ × σ)) : List Written → σ → List ℤ
  | [], _ => []
  | o :: options, world =>
    let r := deliver params unknown o.name o.value world
    r.1 :: if r.1 = 0 then results params unknown options r.2 else []

/-- The options of a line, each with the white space that follows it. -/
inductive Joined : List Written → List UInt8 → Prop
  | nil : Joined [] []
  | last {o : Written} {gap : List UInt8} (hgap : ∀ c ∈ gap, isSpace c = true) :
      Joined [o] (o.text ++ gap)
  | cons {o : Written} {gap t : List UInt8} {options : List Written} (hgap : ∀ c ∈ gap, isSpace c = true)
      (hne : gap ≠ []) (h : Joined options t) : Joined (o :: options) (o.text ++ (gap ++ t))

/-- The line of a string. -/
def lineOf (s : List UInt8) : Line := ⟨fun pos => s[pos]?.getD 0, s.length⟩

variable {params : List (KernelParam σ)}
  {unknown : Option (List UInt8 → Option (List UInt8) → σ → ℤ × σ)}

/-- The last result is zero just if all are. -/
theorem deliverAll_eq_zero (options : List Written) (world : σ) :
    (deliverAll params unknown options world).1 = 0 ↔
      ∀ r ∈ results params unknown options world, r = 0 := by
  induction options generalizing world with
  | nil => simp [deliverAll, results]
  | cons o options ih =>
    dsimp only [deliverAll, results]
    by_cases h : (deliver params unknown o.name o.value world).1 = 0
    · rw [if_pos h, if_pos h, ih, List.forall_mem_cons]
      exact (and_iff_right h).symm
    · rw [if_neg h, if_neg h, List.forall_mem_cons]
      exact ⟨fun hz => absurd hz h, fun hz => hz.1⟩

/-- Bytes that are found at their places are read. -/
theorem reads_of_getElem? {b : ℕ → UInt8} {t : List UInt8} {pos : ℕ}
    (h : ∀ i c, t[i]? = some c → b (pos + i) = c) : Reads b pos t := by
  induction t generalizing pos with
  | nil => trivial
  | cons c t ih =>
    refine ⟨h 0 c rfl, ih fun i d hd => ?_⟩
    rw [show pos + 1 + i = pos + (i + 1) by omega]
    exact h (i + 1) d hd

/-- The whole line of a string. -/
theorem rest_lineOf (s : List UInt8) : Rest (lineOf s) 0 s := by
  refine ⟨reads_of_getElem? fun i c hc => ?_, Nat.zero_add _⟩
  dsimp only [lineOf]
  rw [Nat.zero_add]
  by_cases hi : i < s.length
  · rw [List.getElem?_append_left hi] at hc
    rw [hc, Option.getD_some]
  · rw [List.getElem?_append_right (by omega)] at hc
    have hi0 : i - s.length = 0 := by
      by_contra hne
      rw [List.getElem?_eq_none (by simp only [List.length_cons, List.length_nil]; omega)] at hc
      cases hc
    rw [hi0, List.getElem?_cons_zero, Option.some_inj] at hc
    rw [List.getElem?_eq_none (by omega), Option.getD_none, hc]

/-- The table takes one more byte for white space. -/
theorem tableSpace_eq (c : UInt8) : tableSpace c = (isSpace c || decide (c = 160)) := rfl

/-- White space is white space by the table. -/
theorem tableSpace_of_isSpace {c : UInt8} (h : isSpace c = true) : tableSpace c = true := by
  rw [tableSpace_eq, h, Bool.true_or]

/-- Spaces are dropped up to a byte that is none. -/
theorem dropWhile_gap {gap t : List UInt8} (hgap : ∀ c ∈ gap, isSpace c = true)
    (ht : ∀ c ∈ t.head?, tableSpace c = false) : (gap ++ t).dropWhile tableSpace = t := by
  induction gap with
  | nil =>
    cases t with
    | nil => rfl
    | cons c t =>
      rw [List.nil_append, List.dropWhile_cons, ht c rfl, if_neg Bool.false_ne_true]
  | cons c gap ih =>
    rw [List.cons_append, List.dropWhile_cons,
      if_pos (tableSpace_of_isSpace (hgap c List.mem_cons_self))]
    exact ih fun d hd => hgap d (List.mem_cons_of_mem _ hd)

/-- White space ends an option. -/
theorem ends_gap {gap t : List UInt8} (hgap : ∀ c ∈ gap, isSpace c = true) (h : gap ≠ [] ∨ t = []) :
    Ends (gap ++ t) := by
  cases gap with
  | nil =>
    rw [h.resolve_left (fun hne => hne rfl)]
    exact fun c hc => (by cases hc)
  | cons d gap =>
    rintro c hc
    rw [List.cons_append, List.head?_cons, Option.mem_some_iff] at hc
    rw [← hc]
    exact hgap d List.mem_cons_self

/-- An option starts with no white space, and is not the end of the line. -/
theorem text_start {o : Written} (hw : o.WellFormed) :
    ∃ c s, o.text = c :: s ∧ c ≠ 0 ∧ tableSpace c = false := by
  have hplain : ∃ c s, o.text = c :: s ∧ c ≠ 0 ∧ isSpace c = false := by
    obtain ⟨c, s, hname⟩ := List.exists_cons_of_ne_nil hw.name_ne_nil
    obtain ⟨h0, -, -, hs⟩ := hw.name_free c (by rw [hname]; exact List.mem_cons_self)
    cases o with
    | bare name => exact ⟨c, s, hname, h0, hs⟩
    | plain name v =>
      exact ⟨c, s ++ equalsSign :: v, by rw [Written.text, show name = c :: s from hname]; rfl, h0, hs⟩
    | quoted name v =>
      exact ⟨c, s ++ equalsSign :: quote :: (v ++ [quote]),
        by rw [Written.text, show name = c :: s from hname]; rfl, h0, hs⟩
    | whole name v => exact ⟨quote, name ++ equalsSign :: (v ++ [quote]), rfl, by decide, by decide⟩
  obtain ⟨c, s, htext, h0, hs⟩ := hplain
  have hstart : c ≠ 160 := hw.start c (by rw [htext]; rfl)
  exact ⟨c, s, htext, h0, by rw [tableSpace_eq, hs, Bool.false_or, decide_eq_false hstart]⟩

/-- The options of a line start with no white space. -/
theorem Joined.head {options : List Written} {t : List UInt8} (h : Joined options t)
    (hw : ∀ o ∈ options, o.WellFormed) : ∀ c ∈ t.head?, tableSpace c = false := by
  have hstart : ∀ (o : Written) (s : List UInt8), o.WellFormed →
      ∀ c ∈ (o.text ++ s).head?, tableSpace c = false := by
    intro o s ho c hc
    obtain ⟨d, u, htext, -, hd⟩ := text_start ho
    rw [htext, List.cons_append, List.head?_cons, Option.mem_some_iff] at hc
    rwa [← hc]
  cases h with
  | nil => exact fun c hc => (by cases hc)
  | last hgap => exact hstart _ _ (hw _ List.mem_cons_self)
  | cons hgap hne hj => exact hstart _ _ (hw _ List.mem_cons_self)

/-- The first parameter of the name, or the others. -/
theorem deliver_cons (kp : KernelParam σ) (name : List UInt8) (value : Option (List UInt8)) (world : σ) :
    deliver (kp :: params) unknown name value world =
      if name.map dash2underscore = kp.name then
        if value = none ∧ kp.isBool = false then (-einval, world) else kp.set value world
      else deliver params unknown name value world := by
  unfold deliver
  rw [List.find?_cons]
  by_cases hsame : name.map dash2underscore = kp.name
  · rw [decide_eq_true hsame, if_pos hsame]
  · rw [decide_eq_false hsame, if_neg hsame]

/-- `parse_one` with a name and a value that are in the line. -/
theorem parseOne_eq {l : Line} {param : ℕ} {val : Option ℕ} {name : List UInt8} {value : Option (List UInt8)}
    {world : σ} {fuel : ℕ} (hname : StringIn l param name)
    (hvalue : valueAt l val fuel = some value) (hnull : val = none ↔ value = none)
    (hlen : name.length < 2 ^ 32) (hf : name.length < fuel) :
    parseOne l param val unknown world fuel params = some (deliver params unknown name value world) := by
  induction params with
  | nil =>
    cases unknown with
    | none => rfl
    | some f =>
      rw [parseOne, stringAt_eq hname hf, Option.bind_some, hvalue]
      rfl
  | cons kp params ih =>
    rw [parseOne, parameq_eq hname kp.proper hlen hf, Option.bind_some, deliver_cons]
    by_cases hsame : name.map dash2underscore = kp.name
    · rw [decide_eq_true hsame, if_pos rfl, if_pos hsame]
      by_cases hbare : value = none ∧ kp.isBool = false
      · rw [if_pos ⟨hnull.mpr hbare.1, hbare.2⟩, if_pos hbare]
      · rw [if_neg fun h => hbare ⟨hnull.mp h.1, h.2⟩, if_neg hbare, hvalue, Option.map_some]
    · rw [decide_eq_false hsame, if_neg Bool.false_ne_true, if_neg hsame, ih]

/-- `parse_one` on an option that `next_arg` gave. -/
theorem parseOne_delivers {a : Arg} {name rest : List UInt8} {value : Option (List UInt8)} {world : σ}
    {fuel : ℕ} (h : Delivers a name value rest) (hlen : name.length < 2 ^ 32) (hf : a.line.last < fuel) :
    parseOne a.line a.param a.val unknown world fuel params =
      some (deliver params unknown name value world) := by
  have hends := h.param.ends
  have hval := h.val
  have hvalue : valueAt a.line a.val fuel = some value ∧ (a.val = none ↔ value = none) := by
    cases hv : a.val with
    | none =>
      cases value with
      | none => exact ⟨rfl, by simp⟩
      | some v =>
        rw [hv] at hval
        exact hval.elim
    | some pos =>
      cases value with
      | none =>
        rw [hv] at hval
        exact hval.elim
      | some v =>
        rw [hv] at hval
        have hvends := hval.ends
        refine ⟨?_, by simp⟩
        rw [valueAt, stringAt_eq hval (by omega), Option.map_some]
  exact parseOne_eq h.param hvalue.1 hvalue.2 hlen (by omega)

/-- Writing keeps the end of the line. -/
theorem write_last {l l' : Line} {pos : ℕ} {c : UInt8} (h : l.write pos c = some l') : l'.last = l.last := by
  rw [Line.write, Option.ite_none_right_eq_some, Option.some_inj] at h
  rw [← h.2]

/-- Cutting a quote keeps the end of the line. -/
theorem cutQuote_last {l l' : Line} {pos : ℕ} (h : cutQuote l pos = some l') : l'.last = l.last := by
  rw [cutQuote, Option.bind_eq_some_iff] at h
  obtain ⟨c, -, h⟩ := h
  split at h
  · exact write_last h
  · rw [← Option.some_inj.mp h]

/-- Taking a value keeps the end of the line. -/
theorem takeValue_last {l : Line} {args i equals : ℕ} {quoted : Bool} {r : Line × ℕ}
    (h : takeValue l args i equals quoted = some r) : r.1.last = l.last := by
  simp only [takeValue, Option.bind_eq_some_iff, Option.map_eq_some_iff] at h
  obtain ⟨l1, h1, c, -, l2, h2, l3, h3, rfl⟩ := h
  have e2 : l2.last = l1.last := by
    split at h2
    · exact cutQuote_last h2
    · rw [← Option.some_inj.mp h2]
  have e3 : l3.last = l2.last := by
    split at h3
    · exact cutQuote_last h3
    · rw [← Option.some_inj.mp h3]
  exact e3.trans (e2.trans (write_last h1))

/-- `next_arg` keeps the end of the line. -/
theorem nextArg_last {l : Line} {args fuel : ℕ} {a : Arg} (h : nextArg l args fuel = some a) :
    a.line.last = l.last := by
  simp only [nextArg, endArg, Option.bind_eq_some_iff, Option.map_eq_some_iff] at h
  obtain ⟨first, -, r, -, v, hv, c, -, n, hn, next, -, rfl⟩ := h
  have e1 : v.1.last = l.last := by
    split at hv
    · rw [← Option.some_inj.mp hv]
    · obtain ⟨u, hu, rfl⟩ := Option.map_eq_some_iff.mp hv
      exact takeValue_last hu
  split at hn
  · obtain ⟨u, hu, rfl⟩ := Option.map_eq_some_iff.mp hn
    exact (write_last hu).trans e1
  · rw [← Option.some_inj.mp hn]
    exact e1

/-- The name is a part of the option. -/
theorem name_length_le (o : Written) : o.name.length ≤ o.text.length := by
  cases o <;> simp only [Written.name, Written.text, List.length_append, List.length_cons] <;> omega

/-- One option of the loop: it is read, and delivered by its name and value. -/
theorem option_delivers {o : Written} {rest : List UInt8} {l : Line} {args strings : ℕ} (ho : o.WellFormed)
    (hlen : o.text.length < 2 ^ 32) (h : Rest l args (o.text ++ rest)) (hends : Ends rest)
    (hs : l.last < strings) :
    ∃ a c, l.read args = some c ∧ c ≠ 0 ∧ nextArg l args strings = some a ∧ a.line.last = l.last ∧
      (∀ world : σ, parseOne a.line a.param a.val unknown world strings params =
        some (deliver params unknown o.name o.value world)) ∧
      Rest a.line a.next (rest.tail.dropWhile tableSpace) := by
  have hend := h.ends
  obtain ⟨a, ha, hd⟩ := @nextArg_written _ _ strings _ _ ho h hends hlen (by omega)
  obtain ⟨c, s, htext, hc, -⟩ := text_start ho
  have hlast := nextArg_last ha
  have hname := name_length_le o
  have hread : l.read args = some c := by
    rw [htext] at h
    exact h.read_cons
  exact ⟨a, c, hread, hc, ha, hlast, fun world => parseOne_delivers hd (by omega) (by omega), hd.next⟩

/-- The loop on joined options. -/
theorem parseLoop_joined {options : List Written} {t : List UInt8} (hj : Joined options t)
    (hw : ∀ o ∈ options, o.WellFormed) (hlen : ∀ o ∈ options, o.text.length < 2 ^ 32) {strings : ℕ}
    {l : Line} {args : ℕ} {world : σ} {fuel : ℕ} (h : Rest l args t) (hs : l.last < strings)
    (hf : t.length < fuel) :
    parseLoop params unknown strings l args world fuel = some (deliverAll params unknown options world) := by
  induction hj generalizing l args world fuel with
  | nil =>
    obtain ⟨f, rfl⟩ : ∃ n, fuel = n + 1 := ⟨fuel - 1, by omega⟩
    rw [parseLoop, h.read_nil, Option.bind_some, if_pos rfl]
    rfl
  | @last o gap hgap =>
    have ho := hw o List.mem_cons_self
    obtain ⟨c₀, s₀, htext, -, -⟩ := text_start ho
    rw [htext, List.cons_append, List.length_cons] at hf
    obtain ⟨f, rfl⟩ : ∃ n, fuel = n + 1 + 1 := ⟨fuel - 2, by omega⟩
    have hends : Ends gap := by
      have he := ends_gap (t := []) hgap (Or.inr rfl)
      rwa [List.append_nil] at he
    have hdrop : gap.tail.dropWhile tableSpace = [] :=
      List.dropWhile_eq_nil_iff.mpr fun c hc =>
        tableSpace_of_isSpace (hgap c (List.mem_of_mem_tail hc))
    obtain ⟨a, c, hread, hc, ha, hlast, hparse, hnext⟩ :=
      @option_delivers _ params unknown _ _ _ _ _ ho (hlen o List.mem_cons_self) h hends hs
    rw [hdrop] at hnext
    rw [parseLoop, hread, Option.bind_some, if_neg hc, ha, Option.bind_some, hparse, Option.bind_some,
      parseLoop, hnext.read_nil, Option.bind_some, if_pos rfl]
    dsimp only [deliverAll]
    split
    · rfl
    · rfl
  | @cons o gap t options hgap hne hj ih =>
    have ho := hw o List.mem_cons_self
    have hw' : ∀ o ∈ options, o.WellFormed := fun p hp => hw p (List.mem_cons_of_mem _ hp)
    obtain ⟨c₀, s₀, htext, -, -⟩ := text_start ho
    simp only [htext, List.cons_append, List.length_cons, List.length_append] at hf
    obtain ⟨f, rfl⟩ : ∃ n, fuel = n + 1 := ⟨fuel - 1, by omega⟩
    have hdrop : (gap ++ t).tail.dropWhile tableSpace = t := by
      rw [List.tail_append_of_ne_nil hne]
      exact dropWhile_gap (fun c hc => hgap c (List.mem_of_mem_tail hc)) (hj.head hw')
    obtain ⟨a, c, hread, hc, ha, hlast, hparse, hnext⟩ :=
      @option_delivers _ params unknown _ _ _ _ _ ho (hlen o List.mem_cons_self) h
        (ends_gap hgap (Or.inl hne)) hs
    rw [hdrop] at hnext
    rw [parseLoop, hread, Option.bind_some, if_neg hc, ha, Option.bind_some, hparse, Option.bind_some]
    dsimp only [deliverAll]
    split
    · exact ih hw' (fun p hp => hlen p (List.mem_cons_of_mem _ hp)) hnext (by omega) (by omega)
    · rfl

/-- The loop ends on every line. -/
theorem parseLoop_total {strings : ℕ} {l : Line} {args : ℕ} {t : List UInt8} {fuel : ℕ} (world : σ)
    (h : Rest l args t) (ht : 0 ∉ t) (hlen : l.last < 2 ^ 32) (hs : l.last < strings)
    (hf : t.length < fuel) :
    ∃ r, parseLoop params unknown strings l args world fuel = some r := by
  induction fuel generalizing l args t world with
  | zero => omega
  | succ fuel ih =>
    have hend := h.ends
    cases t with
    | nil => exact ⟨(0, world), by rw [parseLoop, h.read_nil, Option.bind_some, if_pos rfl]⟩
    | cons c t =>
      have hc : c ≠ 0 := by
        rintro rfl
        exact ht List.mem_cons_self
      obtain ⟨a, t', ha, hr, ht', hle, hparam, hval⟩ :=
        @nextArg_total _ _ strings _ _ h ht (by omega) (by omega)
      have hlast := nextArg_last ha
      obtain ⟨name, hname⟩ := @exists_stringIn _ hr.last_zero a.param (by omega)
      have hnends := hname.ends
      have hvalue : ∃ value, valueAt a.line a.val strings = some value ∧ (a.val = none ↔ value = none) := by
        cases hv : a.val with
        | none => exact ⟨none, rfl, by simp⟩
        | some pos =>
          have hpos := hval pos hv
          obtain ⟨v, hstring⟩ := @exists_stringIn _ hr.last_zero pos (by omega)
          have hvends := hstring.ends
          refine ⟨some v, ?_, by simp⟩
          rw [valueAt, stringAt_eq hstring (by omega), Option.map_some]
      obtain ⟨value, hvalue, hnull⟩ := hvalue
      rw [parseLoop, h.read_cons, Option.bind_some, if_neg hc, ha, Option.bind_some,
        parseOne_eq hname hvalue hnull (by omega) (by omega), Option.bind_some]
      rw [List.length_cons] at hf
      split
      · exact ih _ hr ht' (by omega) (by omega) (by omega)
      · exact ⟨_, rfl⟩

/-- `parse_args` delivers the options of a line in order, each to the first parameter of its name or
to the function for unknown ones, and returns zero just if every result is; and it ends on every
line. -/
theorem parseArgs_delivers (params : List (KernelParam σ))
    (unknown : Option (List UInt8 → Option (List UInt8) → σ → ℤ × σ)) (world : σ) :
    (∀ (lead t : List UInt8) (options : List Written), (∀ c ∈ lead, isSpace c = true) →
      Joined options t → (∀ o ∈ options, o.WellFormed) → (∀ o ∈ options, o.text.length < 2 ^ 32) →
      ∀ fuel, (lead ++ t).length < fuel →
        parseArgs params unknown (lineOf (lead ++ t)) world fuel =
            some (deliverAll params unknown options world) ∧
          ((deliverAll params unknown options world).1 = 0 ↔
            ∀ r ∈ results params unknown options world, r = 0)) ∧
    ∀ s : List UInt8, 0 ∉ s → s.length < 2 ^ 32 → ∀ fuel, s.length < fuel →
      ∃ r, parseArgs params unknown (lineOf s) world fuel = some r := by
  refine ⟨?_, ?_⟩
  · intro lead t options hlead hj hw hlen fuel hf
    refine ⟨?_, deliverAll_eq_zero options world⟩
    obtain ⟨next, hskip, hnext⟩ := skipSpaces_eq (rest_lineOf (lead ++ t)) hf
    rw [dropWhile_gap hlead (hj.head hw)] at hnext
    rw [List.length_append] at hf
    rw [parseArgs, hskip, Option.bind_some]
    exact parseLoop_joined hj hw hlen hnext (by simp only [lineOf, List.length_append]; exact hf) (by omega)
  · intro s hs hlen fuel hf
    obtain ⟨next, hskip, hnext⟩ := skipSpaces_eq (rest_lineOf s) hf
    rw [parseArgs, hskip, Option.bind_some]
    have hsub : (s.dropWhile tableSpace).Sublist s := List.dropWhile_sublist _
    have hle := hsub.length_le
    exact parseLoop_total world hnext (fun hm => hs (hsub.subset hm)) hlen hf (by omega)

/-- Parameters that keep what they are given, in order. -/
def recording (name : List UInt8) (proper : 0 ∉ name) (isBool : Bool) :
    KernelParam (List (List UInt8 × Option (List UInt8))) :=
  ⟨name, proper, isBool, fun value world => (0, world ++ [(name, value)])⟩

/-- On ` a-b="x y"  q "c=" ` the parameter `a_b` is given `x y`, `q` nothing, and `c` the empty
value. -/
theorem parseArgs_delivers_three :
    parseArgs [recording [97, 95, 98] (by decide +kernel) false, recording [113] (by decide +kernel) true,
        recording [99] (by decide +kernel) false] none
      (lineOf ([32] ++ ((Written.quoted [97, 45, 98] [120, 32, 121]).text ++ ([32, 32] ++
        ((Written.bare [113]).text ++ ([32] ++ ((Written.whole [99] []).text ++ [32])))))))
      [] 100 = some (0, [([97, 95, 98], some [120, 32, 121]), ([113], none), ([99], some [])]) := by
  have hj : Joined [Written.quoted [97, 45, 98] [120, 32, 121], Written.bare [113], Written.whole [99] []]
      ((Written.quoted [97, 45, 98] [120, 32, 121]).text ++ ([32, 32] ++
        ((Written.bare [113]).text ++ ([32] ++ ((Written.whole [99] []).text ++ [32]))))) :=
    Joined.cons (by decide +kernel) (by decide +kernel) (Joined.cons (by decide +kernel) (by decide +kernel) (Joined.last (by decide +kernel)))
  have hw : ∀ o ∈ [Written.quoted [97, 45, 98] [120, 32, 121], Written.bare [113], Written.whole [99] []],
      o.WellFormed := by
    intro o ho
    simp only [List.mem_cons, List.not_mem_nil, or_false] at ho
    rcases ho with rfl | rfl | rfl
    · exact ⟨by decide +kernel, by decide +kernel, by simp only [Written.ValueAllowed]; decide +kernel,
        by decide +kernel⟩
    · exact ⟨by decide +kernel, by decide +kernel, trivial, by decide +kernel⟩
    · exact ⟨by decide +kernel, by decide +kernel, by simp only [Written.ValueAllowed]; decide +kernel,
        by decide +kernel⟩
  exact ((parseArgs_delivers _ none []).1 [32] _ _ (by decide +kernel) hj hw (by decide +kernel) 100 (by decide +kernel)).1

/-- The option of `n` letters. -/
def letters (n : ℕ) : Written := .bare (List.replicate n 97)

/-- An option of `2 ^ 32` letters: its index returns to the start before the terminator. -/
theorem scan_letters (fuel : ℕ) {i : ℕ} (hi : i < 2 ^ 32) :
    scan (lineOf (letters (2 ^ 32)).text) 0 i 0 false fuel = none := by
  induction fuel generalizing i with
  | zero => rfl
  | succ fuel ih =>
    have hlast : (lineOf (letters (2 ^ 32)).text).last = 2 ^ 32 := List.length_replicate
    have hread : (lineOf (letters (2 ^ 32)).text).read (0 + i) = some 97 := by
      rw [Line.read, hlast, if_pos (by omega)]
      dsimp only [lineOf, letters, Written.text]
      rw [List.getElem?_replicate, if_pos (by omega), Option.getD_some]
    rw [scan, hread, Option.bind_some, if_neg (by decide), if_neg (by decide), if_neg (by decide),
      if_neg (by decide)]
    exact ih (wrap_lt 32 _)

/-- Keep the name and the value of an unknown option. -/
def keep (name : List UInt8) (value : Option (List UInt8))
    (world : List (List UInt8 × Option (List UInt8))) :
    ℤ × List (List UInt8 × Option (List UInt8)) := (0, world ++ [(name, value)])

/-- A line of one option with `2 ^ 32` letters is never read to its end. Of an option whose first
byte is 160 the rest is delivered, although that byte is no white space inside an option. -/
theorem longOption_counterexample :
    ((letters (2 ^ 32)).WellFormed ∧ Joined [letters (2 ^ 32)] (letters (2 ^ 32)).text ∧
      ∀ fuel, parseArgs ([] : List (KernelParam Unit)) none (lineOf (letters (2 ^ 32)).text) () fuel =
        none) ∧
    parseArgs [] (some keep) (lineOf (Written.bare [160, 97]).text) [] 10 = some (0, [([97], none)]) ∧
    deliverAll [] (some keep) [.bare [160, 97]] [] = (0, [([160, 97], none)]) ∧
    parseArgs [] (some keep) (lineOf (Written.bare [97, 160, 98]).text) [] 10 =
      some (0, [([97, 160, 98], none)]) := by
  have hmem : ∀ c ∈ List.replicate (2 ^ 32) (97 : UInt8), c = 97 := fun c hc => List.eq_of_mem_replicate hc
  have hread : (lineOf (letters (2 ^ 32)).text).read 0 = some 97 := by
    rw [Line.read, if_pos (Nat.zero_le _)]
    dsimp only [lineOf, letters, Written.text]
    rw [List.getElem?_replicate, if_pos (by omega), Option.getD_some]
  refine ⟨⟨⟨?_, ?_, trivial, ?_⟩, ?_, ?_⟩, by decide +kernel, by decide +kernel, by decide +kernel⟩
  · dsimp only [letters, Written.name]
    rw [Ne, List.replicate_eq_nil_iff]
    omega
  · intro c hc
    rw [hmem c hc]
    decide
  · intro c hc
    rw [hmem c (List.mem_of_head? hc)]
    decide
  · have hj := @Joined.last (letters (2 ^ 32)) ([]) (fun c hc => by cases hc)
    rwa [List.append_nil] at hj
  · intro fuel
    cases fuel with
    | zero => rfl
    | succ fuel =>
      have hskip : skipSpaces (lineOf (letters (2 ^ 32)).text) 0 (fuel + 1) = some 0 := by
        rw [skipSpaces, hread, Option.bind_some, if_neg (by decide)]
      rw [parseArgs, hskip, Option.bind_some, parseLoop, hread, Option.bind_some, if_neg (by decide),
        nextArg, hread, Option.bind_some]
      simp only [show ¬(97 : UInt8) = quote by decide, decide_false, Bool.false_eq_true, if_false]
      rw [scan_letters (fuel + 1) (by omega), Option.bind_none, Option.bind_none]

end BiscuitOS.ParamsDelivery
