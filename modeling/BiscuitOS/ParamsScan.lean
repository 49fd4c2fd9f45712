import BiscuitOS.ParamsModel

/-!
# Scanning a line

What is left of a line from a place on is a list of bytes that ends with the
line. The scans of `next_arg` and `skip_spaces` are computed on that list; a
scan that is given more fuel than bytes ends before the terminator is passed.
-/

namespace BiscuitOS.ParamsScan

open MachineWord ParamsModel

/-- The bytes from a place on. -/
def Reads (b : ℕ → UInt8) (pos : ℕ) : List UInt8 → Prop
  | [] => True
  | c :: t => b pos = c ∧ Reads b (pos + 1) t

/-- Bytes after other bytes. -/
theorem reads_append {b : ℕ → UInt8} {s t : List UInt8} {pos : ℕ} :
    Reads b pos (s ++ t) ↔ Reads b pos s ∧ Reads b (pos + s.length) t := by
  induction s generalizing pos with
  | nil => simp [Reads]
  | cons c s ih =>
    have he : pos + 1 + s.length = pos + (s.length + 1) := by omega
    simp only [List.cons_append, Reads, ih, List.length_cons, he, and_assoc]

/-- Bytes that agree where they are read. -/
theorem Reads.congr {b b' : ℕ → UInt8} {t : List UInt8} {pos : ℕ} (h : Reads b pos t)
    (hb : ∀ i, pos ≤ i → i < pos + t.length → b' i = b i) : Reads b' pos t := by
  induction t generalizing pos with
  | nil => trivial
  | cons c t ih =>
    refine ⟨(hb pos le_rfl (by simp)).trans h.1, ih h.2 fun i hi hlt => hb i (by omega) ?_⟩
    rw [List.length_cons]
    omega

/-- The rest of the line at a place: its bytes up to the terminator. -/
structure Rest (l : Line) (pos : ℕ) (t : List UInt8) : Prop where
  /-- The bytes and the terminator. -/
  reads : Reads l.bytes pos (t ++ [0])
  /-- They end the line. -/
  ends : pos + t.length = l.last

namespace Rest

variable {l : Line} {pos : ℕ} {c : UInt8} {s t : List UInt8}

/-- The first byte of the rest. -/
theorem read_cons (h : Rest l pos (c :: t)) : l.read pos = some c := by
  have he := h.ends
  rw [List.length_cons] at he
  rw [Line.read, if_pos (by omega), h.reads.1]

/-- Behind the first byte. -/
theorem tail (h : Rest l pos (c :: t)) : Rest l (pos + 1) t := by
  refine ⟨h.reads.2, ?_⟩
  have he := h.ends
  rw [List.length_cons] at he
  omega

/-- The terminator. -/
theorem read_nil (h : Rest l pos []) : l.read pos = some 0 := by
  have he := h.ends
  rw [List.length_nil] at he
  rw [Line.read, if_pos (by omega), h.reads.1]

/-- Behind some bytes. -/
theorem append (h : Rest l pos (s ++ t)) : Rest l (pos + s.length) t := by
  refine ⟨?_, ?_⟩
  · have hr := h.reads
    rw [List.append_assoc] at hr
    exact (reads_append.mp hr).2
  · have he := h.ends
    rw [List.length_append] at he
    omega

/-- The place is in the line. -/
theorem le_last (h : Rest l pos t) : pos ≤ l.last := by
  have he := h.ends
  omega

/-- The rest depends on the bytes from the place on. -/
theorem congr {l' : Line} (h : Rest l pos t) (hlast : l'.last = l.last)
    (hb : ∀ i, pos ≤ i → l'.bytes i = l.bytes i) : Rest l' pos t :=
  ⟨h.reads.congr fun i hi _ => hb i hi, h.ends.trans hlast.symm⟩

/-- The last byte is the terminator. -/
theorem last_zero (h : Rest l pos t) : l.bytes l.last = 0 := by
  have hr := (reads_append.mp h.reads).2.1
  rwa [h.ends] at hr

end Rest

/-- A string in the line. -/
structure StringIn (l : Line) (pos : ℕ) (s : List UInt8) : Prop where
  /-- It has no terminator in it. -/
  proper : 0 ∉ s
  /-- The bytes and the terminator. -/
  reads : Reads l.bytes pos (s ++ [0])
  /-- It ends in the line. -/
  ends : pos + s.length ≤ l.last

/-- A place in a line with a terminator at its end has a string. -/
theorem exists_stringIn {l : Line} (hlast : l.bytes l.last = 0) {pos : ℕ} (hpos : pos ≤ l.last) :
    ∃ s, StringIn l pos s := by
  induction hd : l.last - pos generalizing pos with
  | zero =>
    have he : pos = l.last := by omega
    exact ⟨[], List.not_mem_nil, ⟨he ▸ hlast, trivial⟩, by simpa using hpos⟩
  | succ d ih =>
    by_cases hc : l.bytes pos = 0
    · exact ⟨[], List.not_mem_nil, ⟨hc, trivial⟩, by simpa using hpos⟩
    · obtain ⟨s, hs⟩ := @ih (pos + 1) (by omega) (by omega)
      have hends := hs.ends
      refine ⟨l.bytes pos :: s, ?_, ⟨rfl, hs.reads⟩, ?_⟩
      · rw [List.mem_cons, not_or]
        exact ⟨fun h => hc h.symm, hs.proper⟩
      · rw [List.length_cons]
        omega

/-- A string behind its first byte. -/
theorem StringIn.tail {l : Line} {pos : ℕ} {c : UInt8} {s : List UInt8} (h : StringIn l pos (c :: s)) :
    StringIn l (pos + 1) s := by
  have hends := h.ends
  rw [List.length_cons] at hends
  exact ⟨fun hs => h.proper (List.mem_cons_of_mem _ hs), h.reads.2, by omega⟩

/-- The first byte of a string. -/
theorem StringIn.read_cons {l : Line} {pos : ℕ} {c : UInt8} {s : List UInt8}
    (h : StringIn l pos (c :: s)) : l.read pos = some c ∧ c ≠ 0 := by
  have hends := h.ends
  have hr : l.bytes pos = c := h.reads.1
  rw [List.length_cons] at hends
  refine ⟨by rw [Line.read, if_pos (by omega), hr], fun hc => h.proper ?_⟩
  rw [hc]
  exact List.mem_cons_self

/-- The terminator of a string. -/
theorem StringIn.read_nil {l : Line} {pos : ℕ} (h : StringIn l pos []) : l.read pos = some 0 := by
  have hr : l.bytes pos = 0 := h.reads.1
  have hends : pos ≤ l.last := by simpa using h.ends
  rw [Line.read, if_pos hends, hr]

/-- Reading a string gives it. -/
theorem stringAt_eq {l : Line} {s : List UInt8} {pos fuel : ℕ} (h : StringIn l pos s)
    (hf : s.length < fuel) : stringAt l pos fuel = some s := by
  induction s generalizing pos fuel with
  | nil =>
    obtain ⟨f, rfl⟩ : ∃ n, fuel = n + 1 := ⟨fuel - 1, by omega⟩
    rw [stringAt, h.read_nil, Option.bind_some, if_pos rfl]
  | cons c s ih =>
    rw [List.length_cons] at hf
    obtain ⟨f, rfl⟩ : ∃ n, fuel = n + 1 := ⟨fuel - 1, by omega⟩
    obtain ⟨hr, hc⟩ := h.read_cons
    rw [stringAt, hr, Option.bind_some, if_neg hc, ih h.tail (by omega), Option.map_some]

/-- `-` becomes `_`, and no other byte becomes the terminator. -/
theorem dash2underscore_eq_zero {c : UInt8} : dash2underscore c = 0 ↔ c = 0 := by
  unfold dash2underscore
  by_cases hc : c = 45
  · rw [if_pos hc, hc]
    decide
  · rw [if_neg hc]

/-- The comparison of the rest of a string with the rest of a name. -/
theorem parameq_from {l : Line} {s suffix before : List UInt8} {input fuel : ℕ}
    (h : StringIn l (input + before.length) s) (hn : 0 ∉ before ++ suffix)
    (hlen : before.length + s.length < 2 ^ 32) (hf : s.length < fuel) :
    parameq l input (before ++ suffix) before.length fuel =
      some (decide (s.map dash2underscore = suffix)) := by
  obtain ⟨f, rfl⟩ : ∃ n, fuel = n + 1 := ⟨fuel - 1, by omega⟩
  have hat : (before ++ suffix ++ [0])[before.length]? = (suffix ++ [0])[0]? := by
    rw [List.append_assoc, List.getElem?_append_right le_rfl, Nat.sub_self]
  induction s generalizing before suffix f with
  | nil =>
    rw [parameq, h.read_nil, hat]
    cases suffix with
    | nil => rfl
    | cons d suffix =>
      have hd : ¬dash2underscore 0 = d := by
        rintro rfl
        exact hn (List.mem_append_right _ (List.mem_cons.mpr (Or.inl rfl)))
      rw [List.cons_append, List.getElem?_cons_zero, Option.bind_some, Option.bind_some, if_neg hd]
      simp
  | cons c s ih =>
    obtain ⟨hr, hc⟩ := h.read_cons
    rw [List.length_cons] at hf hlen
    rw [parameq, hr, hat]
    cases suffix with
    | nil =>
      have hd : ¬dash2underscore c = 0 := fun hd => hc (dash2underscore_eq_zero.mp hd)
      rw [List.nil_append, List.getElem?_cons_zero, Option.bind_some, Option.bind_some, if_neg hd]
      simp
    | cons d suffix =>
      rw [List.cons_append, List.getElem?_cons_zero, Option.bind_some, Option.bind_some]
      by_cases hd : dash2underscore c = d
      · have hlength : (before ++ [d]).length = before.length + 1 := by simp
        have happ : before ++ d :: suffix = before ++ [d] ++ suffix := by simp
        rw [if_pos hd, if_neg hc, wrap_of_lt (by omega), happ, ← hlength]
        obtain ⟨g, rfl⟩ : ∃ n, f = n + 1 := ⟨f - 1, by omega⟩
        have hin : StringIn l (input + (before ++ [d]).length) s := by
          rw [hlength]
          exact h.tail
        rw [ih hin (by rwa [← happ]) (by rw [hlength]; omega) g (by omega) (by simp)]
        simp [hd]
      · rw [if_neg hd]
        simp [hd]

/-- The comparison of an option with the name of a parameter. -/
theorem parameq_eq {l : Line} {s name : List UInt8} {input fuel : ℕ} (h : StringIn l input s)
    (hn : 0 ∉ name) (hlen : s.length < 2 ^ 32) (hf : s.length < fuel) :
    parameq l input name 0 fuel = some (decide (s.map dash2underscore = name)) := by
  have hfrom := @parameq_from _ _ name ([]) _ _ h hn (by simpa using hlen) hf
  rwa [List.nil_append] at hfrom

/-- `skip_spaces` stops at the first byte that is none. -/
theorem skipSpaces_eq {l : Line} {t : List UInt8} {pos fuel : ℕ} (h : Rest l pos t)
    (hf : t.length < fuel) :
    ∃ next, skipSpaces l pos fuel = some next ∧ Rest l next (t.dropWhile tableSpace) := by
  induction t generalizing pos fuel with
  | nil =>
    obtain ⟨f, rfl⟩ : ∃ n, fuel = n + 1 := ⟨fuel - 1, by omega⟩
    exact ⟨pos, by rw [skipSpaces, h.read_nil]; rfl, h⟩
  | cons c t ih =>
    rw [List.length_cons] at hf
    obtain ⟨f, rfl⟩ : ∃ n, fuel = n + 1 := ⟨fuel - 1, by omega⟩
    rw [skipSpaces, h.read_cons, Option.bind_some, List.dropWhile_cons]
    by_cases hc : tableSpace c = true
    · rw [if_pos hc, if_pos hc]
      exact ih h.tail (by omega)
    · rw [if_neg hc, if_neg hc]
      exact ⟨pos, rfl, h⟩

end BiscuitOS.ParamsScan
