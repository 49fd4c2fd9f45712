import BiscuitOS.MeminfoModel
import BiscuitOS.MmuLowmem

/-!
# Low and high banks

The loop of `sanity_check_meminfo` computes a list function that marks the
banks and splits the one across the lowmem limit. A bank that begins exactly
at the limit is marked low.
-/

namespace BiscuitOS.MeminfoLimit

open MachineWord ArrayWindow LoopRun MmuModel MmuLowmem MeminfoModel

/-- A bank with bytes on both sides of a limit. -/
def Straddles (limit : ℕ) (b : Membank) : Prop := b.start < limit ∧ limit < b.start + b.size

instance (limit : ℕ) (b : Membank) : Decidable (Straddles limit b) :=
  inferInstanceAs (Decidable (_ ∧ _))

/-- The banks marked and split at a limit, given how many there are and whether the last one was of
high memory. -/
def separate (limit : ℕ) : ℕ → Bool → List Membank → List Membank
  | _, _, [] => []
  | n, highmem, b :: rest =>
    let highmem := highmem || decide (limit < b.start)
    if Straddles limit b then
      if maxBanks ≤ n then ⟨b.start, limit - b.start, highmem⟩ :: separate limit n highmem rest
      else
        ⟨b.start, limit - b.start, highmem⟩ :: ⟨limit, b.size - (limit - b.start), true⟩ ::
          separate limit (n + 1) true rest
    else ⟨b.start, b.size, highmem⟩ :: separate limit n highmem rest

/-- What the loop of the check makes of some banks: one below the physical memory is marked, too. -/
def divide (limit : ℕ) : ℕ → Bool → List Membank → List Membank
  | _, _, [] => []
  | n, highmem, b :: rest =>
    let highmem := highmem || decide (limit < b.start ∨ b.start < physOffset)
    if Straddles limit b then
      if maxBanks ≤ n then ⟨b.start, limit - b.start, highmem⟩ :: divide limit n highmem rest
      else
        ⟨b.start, limit - b.start, highmem⟩ :: ⟨limit, b.size - (limit - b.start), true⟩ ::
          divide limit (n + 1) true rest
    else ⟨b.start, b.size, highmem⟩ :: divide limit n highmem rest

/-- The bytes of some banks. -/
def bytes (l : List Membank) : Set ℕ := {x | ∃ b ∈ l, b.start ≤ x ∧ x < b.start + b.size}

/-- Banks of the physical memory, sorted and disjoint. -/
structure BanksValid (l : List Membank) : Prop where
  /-- None starts below the physical memory. -/
  low : ∀ b ∈ l, physOffset ≤ b.start
  /-- None wraps. -/
  fits : ∀ b ∈ l, b.start < 2 ^ 32 ∧ b.start + b.size ≤ 2 ^ 32
  /-- Each one ends before the next ones start. -/
  apart : l.Pairwise fun a b => a.start + a.size ≤ b.start

/-- What the check is to make of some banks. -/
structure Separated (limit : ℕ) (l l' : List Membank) : Prop where
  /-- They fit the array. -/
  count : l'.length ≤ maxBanks
  /-- They are sorted and disjoint. -/
  apart : l'.Pairwise fun a b => a.start + a.size ≤ b.start
  /-- They have the same bytes. -/
  bytes : bytes l' = bytes l
  /-- Low banks end at or below the limit. -/
  low : ∀ b ∈ l', b.highmem = false → b.start + b.size ≤ limit
  /-- High banks start at or above it. -/
  high : ∀ b ∈ l', b.highmem = true → limit ≤ b.start

variable {l rest : List Membank} {b : Membank} {limit n k : ℕ} {highmem : Bool} {arg : Option ℕ}

/-- The limit as a physical address. -/
theorem lowmemLimit_eq (arg : Option ℕ) :
    lowmemLimit (vmallocMin arg) + linearOffset = vmallocMin arg ∧
      physOffset < lowmemLimit (vmallocMin arg) ∧ lowmemLimit (vmallocMin arg) < 2 ^ 32 := by
  obtain ⟨hlow, hhigh⟩ := vmallocMin_bounds arg
  have hp : pageOffset = 0xC0000000 := rfl
  have ho : physOffset = 0x50000000 := rfl
  have hl : linearOffset = 0x70000000 := rfl
  have he : vmallocEnd = 0xE0800000 := rfl
  generalize vmallocMin arg = vm at hlow hhigh ⊢
  have hsub : wrapSub 64 (vm - 1) pageOffset = vm - 1 - pageOffset :=
    wrapSub_of_le (by omega) (by omega)
  have hphys : virtToPhys (vm - 1) = vm - 1 - pageOffset + physOffset := by
    have hsmall : vm - 1 - pageOffset + physOffset < 2 ^ 64 := by omega
    rw [virtToPhys, hsub]
    exact wrap_of_lt hsmall
  have hlimit : lowmemLimit vm = vm - pageOffset + physOffset := by
    have hsmall : vm - 1 - pageOffset + physOffset + 1 < 2 ^ 32 := by omega
    rw [lowmemLimit, hphys, wrap_of_lt hsmall]
    omega
  rw [hlimit]
  omega

/-- The virtual address of a word. -/
theorem physToVirt_word {p : ℕ} (hp : p < 2 ^ 32) : physToVirt p = p + linearOffset := by
  have hphys : physOffset = 0x50000000 := rfl
  have hlinear : linearOffset = 0x70000000 := rfl
  have hpage : pageOffset = 0xC0000000 := rfl
  rw [physToVirt, wrap, wrapSub, hphys, hlinear, hpage]
  omega

/-- The comparisons of virtual addresses are those of physical ones. -/
theorem straddles_iff (arg : Option ℕ) (b : Membank) (hfits : b.start < 2 ^ 32) :
    (physToVirt b.start < vmallocMin arg ∧
        wrapSub 64 (vmallocMin arg) (physToVirt b.start) < b.size ↔
      Straddles (lowmemLimit (vmallocMin arg)) b) ∧
    (vmallocMin arg < physToVirt b.start ∨ physToVirt b.start < pageOffset ↔
      lowmemLimit (vmallocMin arg) < b.start ∨ b.start < physOffset) ∧
    (physToVirt b.start < vmallocMin arg →
      wrapSub 64 (vmallocMin arg) (physToVirt b.start) = lowmemLimit (vmallocMin arg) - b.start) := by
  obtain ⟨hlimit, -, hsmall⟩ := lowmemLimit_eq arg
  have hp : pageOffset = 0xC0000000 := rfl
  have ho : physOffset = 0x50000000 := rfl
  have hl : linearOffset = 0x70000000 := rfl
  have hsub : b.start + linearOffset < vmallocMin arg →
      wrapSub 64 (vmallocMin arg) (b.start + linearOffset) =
        lowmemLimit (vmallocMin arg) - b.start := by
    intro hlt
    rw [wrapSub_of_le (by omega) (by omega)]
    omega
  rw [physToVirt_word hfits, Straddles]
  refine ⟨⟨fun ⟨h1, h2⟩ => ?_, fun ⟨h1, h2⟩ => ?_⟩, by omega, hsub⟩
  · rw [hsub h1] at h2
    omega
  · have hlt : b.start + linearOffset < vmallocMin arg := by omega
    rw [hsub hlt]
    omega

/-- The bank that a round is about. -/
theorem checkStep_bank {c : Check} {out : List Membank} (hi : c.i = out.length)
    (hbanks : c.mi.banks = out ++ b :: rest) :
    c.mi.bank c.i = b ∧ c.i < c.mi.nrBanks ∧ c.mi.nrBanks = out.length + (rest.length + 1) := by
  have hlen := congrArg List.length hbanks
  rw [Meminfo.banks, window_length, List.length_append, List.length_cons] at hlen
  refine ⟨?_, by omega, hlen⟩
  rw [hi, ← Nat.zero_add out.length]
  exact apply_of_window hbanks

/-- One round on a bank that does not straddle the limit. -/
theorem checkStep_plain {c : Check} {out : List Membank} (hfits : b.start < 2 ^ 32) (hi : c.i = out.length) (hj : c.j = out.length)
    (hbanks : c.mi.banks = out ++ b :: rest)
    (hplain : ¬Straddles (lowmemLimit (vmallocMin arg)) b) :
    ∃ c', checkStep (vmallocMin arg) c = .inl c' ∧ c'.i = out.length + 1 ∧ c'.j = out.length + 1 ∧
      c'.mi.nrBanks = c.mi.nrBanks ∧
      c'.highmem = (c.highmem || decide (lowmemLimit (vmallocMin arg) < b.start ∨ b.start < physOffset)) ∧
      c'.mi.banks = out ++ ⟨b.start, b.size, c'.highmem⟩ :: rest := by
  obtain ⟨hstraddle, hhigh, -⟩ := straddles_iff arg b hfits
  obtain ⟨hb, hlt, -⟩ := checkStep_bank hi hbanks
  refine ⟨⟨⟨c.mi.nrBanks, Function.update c.mi.bank c.j
    ⟨b.start, b.size, c.highmem || decide (lowmemLimit (vmallocMin arg) < b.start ∨ b.start < physOffset)⟩⟩, c.i + 1, c.j + 1,
    c.highmem || decide (lowmemLimit (vmallocMin arg) < b.start ∨ b.start < physOffset)⟩, ?_, congrArg Nat.succ hi,
    congrArg Nat.succ hj, rfl, rfl, ?_⟩
  · simp only [checkStep, if_pos hlt, hb, hhigh]
    rw [if_neg (fun hc => hplain (hstraddle.mp hc))]
  · have hwindow := window_update (⟨b.start, b.size,
      c.highmem || decide (lowmemLimit (vmallocMin arg) < b.start ∨ b.start < physOffset)⟩ : Membank) hbanks
    rw [Nat.zero_add] at hwindow
    rw [Meminfo.banks, hj]
    exact hwindow

/-- One round on a bank that straddles the limit in an array that is full. -/
theorem checkStep_full {c : Check} {out : List Membank} (hfits : b.start < 2 ^ 32) (hi : c.i = out.length) (hj : c.j = out.length)
    (hbanks : c.mi.banks = out ++ b :: rest)
    (hcross : Straddles (lowmemLimit (vmallocMin arg)) b) (hfull : maxBanks ≤ c.mi.nrBanks) :
    ∃ c', checkStep (vmallocMin arg) c = .inl c' ∧ c'.i = out.length + 1 ∧ c'.j = out.length + 1 ∧
      c'.mi.nrBanks = c.mi.nrBanks ∧
      c'.highmem = (c.highmem || decide (lowmemLimit (vmallocMin arg) < b.start ∨ b.start < physOffset)) ∧
      c'.mi.banks =
        out ++ ⟨b.start, lowmemLimit (vmallocMin arg) - b.start, c'.highmem⟩ :: rest := by
  obtain ⟨hstraddle, hhigh, hsub⟩ := straddles_iff arg b hfits
  obtain ⟨-, -, hlimit⟩ := lowmemLimit_eq arg
  obtain ⟨hb, hlt, -⟩ := checkStep_bank hi hbanks
  have hin := hstraddle.mpr hcross
  have hsize := hsub hin.1
  have hwrap : wrap 32 (lowmemLimit (vmallocMin arg) - b.start) =
      lowmemLimit (vmallocMin arg) - b.start := wrap_of_lt (by omega)
  refine ⟨⟨⟨c.mi.nrBanks, Function.update (Function.update c.mi.bank c.j
      ⟨b.start, b.size, c.highmem || decide (lowmemLimit (vmallocMin arg) < b.start ∨ b.start < physOffset)⟩) c.j
      ⟨b.start, lowmemLimit (vmallocMin arg) - b.start,
        c.highmem || decide (lowmemLimit (vmallocMin arg) < b.start ∨ b.start < physOffset)⟩⟩, c.i + 1, c.j + 1,
    c.highmem || decide (lowmemLimit (vmallocMin arg) < b.start ∨ b.start < physOffset)⟩, ?_, congrArg Nat.succ hi,
    congrArg Nat.succ hj, rfl, rfl, ?_⟩
  · simp only [checkStep, if_pos hlt, hb, hhigh]
    rw [if_pos hin, if_pos hfull, hsize, hwrap]
  · have hwindow := window_update (⟨b.start, lowmemLimit (vmallocMin arg) - b.start,
      c.highmem || decide (lowmemLimit (vmallocMin arg) < b.start ∨ b.start < physOffset)⟩ : Membank) hbanks
    rw [Nat.zero_add] at hwindow
    rw [Meminfo.banks, hj, Function.update_idem]
    exact hwindow

/-- One round on a bank that straddles the limit, with room for its upper part. -/
theorem checkStep_split {c : Check} {out : List Membank} (hfits : b.start < 2 ^ 32 ∧ b.start + b.size ≤ 2 ^ 32) (hi : c.i = out.length)
    (hj : c.j = out.length) (hbanks : c.mi.banks = out ++ b :: rest)
    (hcross : Straddles (lowmemLimit (vmallocMin arg)) b) (hroom : c.mi.nrBanks < maxBanks) :
    ∃ c', checkStep (vmallocMin arg) c = .inl c' ∧ c'.i = out.length + 2 ∧ c'.j = out.length + 2 ∧
      c'.mi.nrBanks = c.mi.nrBanks + 1 ∧ c'.highmem = true ∧
      c'.mi.banks = out ++ ⟨b.start, lowmemLimit (vmallocMin arg) - b.start,
          c.highmem || decide (lowmemLimit (vmallocMin arg) < b.start ∨ b.start < physOffset)⟩ ::
        ⟨lowmemLimit (vmallocMin arg), b.size - (lowmemLimit (vmallocMin arg) - b.start), true⟩ ::
          rest := by
  obtain ⟨hstraddle, hhigh, hsub⟩ := straddles_iff arg b hfits.1
  obtain ⟨-, -, hlimit⟩ := lowmemLimit_eq arg
  obtain ⟨hb, hlt, hn⟩ := checkStep_bank hi hbanks
  have hin := hstraddle.mpr hcross
  have hsize := hsub hin.1
  obtain ⟨hstart, hend⟩ := id hcross
  generalize hL : lowmemLimit (vmallocMin arg) = L at *
  have hwrap : wrap 32 (L - b.start) = L - b.start := wrap_of_lt (by omega)
  generalize hmark : (c.highmem || decide (L < b.start ∨ b.start < physOffset)) = mark
  have hmarked := window_update (⟨b.start, b.size, mark⟩ : Membank) hbanks
  rw [Nat.zero_add] at hmarked
  obtain ⟨gap, hgap, hmoved⟩ := window_open hmarked 1
  obtain ⟨g, rfl⟩ := List.length_eq_one_iff.mp hgap
  have hassoc : ∀ x : Membank, out ++ ([g] ++ x :: rest) = (out ++ [g]) ++ x :: rest := fun x => by
    rw [List.append_assoc]
  have hlength : 0 + (out ++ [g]).length = out.length + 1 := by
    rw [List.length_append, List.length_singleton, Nat.zero_add]
  rw [hassoc] at hmoved
  generalize hm : move (Function.update c.mi.bank out.length ⟨b.start, b.size, mark⟩) (out.length + 1)
    out.length (c.mi.nrBanks - out.length) = moved at hmoved
  have hupper := apply_of_window hmoved
  rw [hlength] at hupper
  have hhigher := window_update (⟨L, b.size - (L - b.start), true⟩ : Membank) hmoved
  rw [hlength, ← hassoc] at hhigher
  have hlower := window_update (⟨b.start, L - b.start, mark⟩ : Membank) hhigher
  rw [Nat.zero_add] at hlower
  have hcut : wrapSub 32 b.size (L - b.start) = b.size - (L - b.start) := by
    rw [wrapSub]
    omega
  have hlimitEq : wrap 32 (virtToPhys (vmallocMin arg - 1) + 1) = L := hL
  refine ⟨⟨⟨c.mi.nrBanks + 1, Function.update (Function.update moved (out.length + 1)
      ⟨L, b.size - (L - b.start), true⟩) out.length ⟨b.start, L - b.start, mark⟩⟩, c.i + 2, c.j + 2,
    true⟩, ?_, by rw [hi], by rw [hj], rfl, rfl, hlower⟩
  simp only [checkStep, if_pos hlt, hb, hhigh, hmark]
  rw [if_pos hin, if_neg (by omega), hsize, hwrap, hlimitEq]
  simp only [hi, hj, hm, hupper, hcut]

/-- The loop marks and splits the banks that are left. -/
theorem loop_divides (arg : Option ℕ) (c : Check) (out : List Membank) {fuel : ℕ} (hfuel : rest.length < fuel)
    (hfits : ∀ b ∈ rest, b.start < 2 ^ 32 ∧ b.start + b.size ≤ 2 ^ 32) (hi : c.i = out.length)
    (hj : c.j = out.length) (hbanks : c.mi.banks = out ++ rest) :
    ∃ c', loop (checkStep (vmallocMin arg)) fuel c = some c' ∧ c'.j = c'.mi.nrBanks ∧
      c'.mi.banks =
        out ++ divide (lowmemLimit (vmallocMin arg)) c.mi.nrBanks c.highmem rest := by
  induction rest generalizing fuel c out with
  | nil =>
    obtain ⟨fuel, rfl⟩ : ∃ m, fuel = m + 1 := ⟨fuel - 1, by omega⟩
    have hlen := congrArg List.length hbanks
    rw [Meminfo.banks, window_length, List.append_nil] at hlen
    have hstep : checkStep (vmallocMin arg) c = .inr c := by
      rw [checkStep, if_neg (by omega)]
    exact ⟨c, loop_inr hstep fuel, by omega, hbanks⟩
  | cons b rest ih =>
    obtain ⟨fuel, rfl⟩ : ∃ m, fuel = m + 1 := ⟨fuel - 1, by omega⟩
    have hleft : rest.length < fuel := Nat.lt_of_succ_lt_succ hfuel
    have hfits' : ∀ a ∈ rest, a.start < 2 ^ 32 ∧ a.start + a.size ≤ 2 ^ 32 :=
      fun a ha => hfits a (List.mem_cons_of_mem _ ha)
    have hb := hfits b List.mem_cons_self
    have hsingle : ∀ x : Membank, (out ++ [x]).length = out.length + 1 := fun x => by
      rw [List.length_append, List.length_singleton]
    have happend : ∀ x : Membank, ∀ l, out ++ x :: l = (out ++ [x]) ++ l := fun x l => by
      rw [List.append_assoc, List.singleton_append]
    rw [divide]
    by_cases hcross : Straddles (lowmemLimit (vmallocMin arg)) b
    · rw [if_pos hcross]
      by_cases hfull : maxBanks ≤ c.mi.nrBanks
      · obtain ⟨c', hstep, hi', hj', hnr, hmark, hbanks'⟩ :=
          checkStep_full hb.1 hi hj hbanks hcross hfull
        rw [happend] at hbanks'
        rw [← hsingle ⟨b.start, lowmemLimit (vmallocMin arg) - b.start, c'.highmem⟩] at hi' hj'
        obtain ⟨d, hloop, hd, hresult⟩ := ih c' _ hleft hfits' hi' hj' hbanks'
        refine ⟨d, by rw [loop_inl hstep, hloop], hd, ?_⟩
        rw [hresult, if_pos hfull, List.append_assoc, List.singleton_append, hnr, hmark]
      · obtain ⟨c', hstep, hi', hj', hnr, hmark, hbanks'⟩ :=
          checkStep_split hb hi hj hbanks hcross (not_le.mp hfull)
        have hdouble : ∀ (x y : Membank) (l : List Membank), out ++ x :: y :: l = (out ++ [x, y]) ++ l :=
          fun x y l => by rw [List.append_assoc, List.cons_append, List.singleton_append]
        have hlength : ∀ x y : Membank, (out ++ [x, y]).length = out.length + 2 := fun x y => by
          rw [List.length_append]
          rfl
        rw [hdouble] at hbanks'
        obtain ⟨d, hloop, hd, hresult⟩ := ih c' _ hleft hfits' (hi'.trans (hlength _ _).symm)
          (hj'.trans (hlength _ _).symm) hbanks'
        refine ⟨d, by rw [loop_inl hstep, hloop], hd, ?_⟩
        rw [hresult, if_neg hfull, ← hdouble, hnr, hmark]
    · obtain ⟨c', hstep, hi', hj', hnr, hmark, hbanks'⟩ :=
        checkStep_plain hb.1 hi hj hbanks hcross
      rw [happend] at hbanks'
      rw [← hsingle ⟨b.start, b.size, c'.highmem⟩] at hi' hj'
      obtain ⟨d, hloop, hd, hresult⟩ := ih c' _ hleft hfits' hi' hj' hbanks'
      refine ⟨d, by rw [loop_inl hstep, hloop], hd, ?_⟩
      rw [hresult, if_neg hcross, List.append_assoc, List.singleton_append, hnr, hmark]

/-- The check marks and splits the banks, and drops none. -/
theorem sanityCheckMeminfo_divides (arg : Option ℕ) {mi : Meminfo} {fuel : ℕ} (cacheid : ℕ)
    (hfits : ∀ b ∈ mi.banks, b.start < 2 ^ 32 ∧ b.start + b.size ≤ 2 ^ 32) (hfuel : mi.nrBanks < fuel) :
    ∃ mi', sanityCheckMeminfo fuel (vmallocMin arg) cacheid mi = some mi' ∧
      mi'.banks = divide (lowmemLimit (vmallocMin arg)) mi.nrBanks false mi.banks := by
  have hlength : mi.banks.length = mi.nrBanks := window_length _ _ _
  obtain ⟨c, hloop, hj, hbanks⟩ := loop_divides arg ⟨mi, 0, 0, false⟩ []
    (hlength.symm ▸ hfuel) hfits rfl rfl rfl
  refine ⟨⟨c.j, c.mi.bank⟩, ?_, ?_⟩
  · rw [sanityCheckMeminfo, hloop, Option.map_some, ignoresHighmem_false, Bool.and_false,
      if_neg (by decide)]
  · rw [List.nil_append] at hbanks
    rw [← hbanks, Meminfo.banks, hj]
    rfl

/-- Over the physical memory nothing else is marked. -/
theorem divide_eq_separate (hlow : ∀ b ∈ l, physOffset ≤ b.start) :
    divide limit n highmem l = separate limit n highmem l := by
  induction l generalizing n highmem with
  | nil => rfl
  | cons b rest ih =>
    have hb := hlow b List.mem_cons_self
    have hmark : decide (limit < b.start ∨ b.start < physOffset) = decide (limit < b.start) :=
      decide_eq_decide.mpr (or_iff_left (not_lt.mpr hb))
    have hrest := fun n highmem => @ih n highmem fun a ha => hlow a (List.mem_cons_of_mem _ ha)
    simp only [divide, separate, hmark, hrest]

/-- On banks of the physical memory it marks and splits them at the limit. -/
theorem sanityCheckMeminfo_separates (arg : Option ℕ) {mi : Meminfo} {fuel : ℕ} (cacheid : ℕ)
    (hvalid : BanksValid mi.banks) (hfuel : mi.nrBanks < fuel) :
    ∃ mi', sanityCheckMeminfo fuel (vmallocMin arg) cacheid mi = some mi' ∧
      mi'.banks = separate (lowmemLimit (vmallocMin arg)) mi.nrBanks false mi.banks := by
  obtain ⟨mi', hcheck, hbanks⟩ := sanityCheckMeminfo_divides arg cacheid hvalid.fits hfuel
  exact ⟨mi', hcheck, hbanks.trans (divide_eq_separate hvalid.low)⟩

/-- Each bank made lies in one of those given. -/
theorem divide_within : ∀ a ∈ divide limit n highmem l,
    ∃ b ∈ l, b.start ≤ a.start ∧ a.start + a.size ≤ b.start + b.size := by
  induction l generalizing n highmem with
  | nil => exact fun a ha => by cases ha
  | cons b rest ih =>
    have hrest : ∀ {n highmem} a, a ∈ divide limit n highmem rest →
        ∃ c ∈ b :: rest, c.start ≤ a.start ∧ a.start + a.size ≤ c.start + c.size := by
      intro n highmem a ha
      obtain ⟨c, hc, hin⟩ := ih a ha
      exact ⟨c, List.mem_cons_of_mem _ hc, hin⟩
    intro a ha
    rw [divide] at ha
    split_ifs at ha with hcross hfull
    · obtain ⟨hlow, hhigh⟩ := hcross
      rcases List.mem_cons.mp ha with rfl | ha
      · exact ⟨b, List.mem_cons_self, le_rfl, by dsimp only; omega⟩
      · exact hrest a ha
    · obtain ⟨hlow, hhigh⟩ := hcross
      rcases List.mem_cons.mp ha with rfl | ha
      · exact ⟨b, List.mem_cons_self, le_rfl, by dsimp only; omega⟩
      · rcases List.mem_cons.mp ha with rfl | ha
        · exact ⟨b, List.mem_cons_self, by dsimp only; omega, by dsimp only; omega⟩
        · exact hrest a ha
    · rcases List.mem_cons.mp ha with rfl | ha
      · exact ⟨b, List.mem_cons_self, le_rfl, le_rfl⟩
      · exact hrest a ha

/-- Each bank given starts where one made does. -/
theorem divide_starts (hb : b ∈ l) : ∃ a ∈ divide limit n highmem l, a.start = b.start := by
  induction l generalizing n highmem with
  | nil => cases hb
  | cons c rest ih =>
    rw [divide]
    rcases List.mem_cons.mp hb with rfl | hin
    · split_ifs
      · exact ⟨_, List.mem_cons_self, rfl⟩
      · exact ⟨_, List.mem_cons_self, rfl⟩
      · exact ⟨_, List.mem_cons_self, rfl⟩
    · split_ifs
      · obtain ⟨a, ha, heq⟩ := @ih n (highmem || decide (limit < c.start ∨ c.start < physOffset)) hin
        exact ⟨a, List.mem_cons_of_mem _ ha, heq⟩
      · obtain ⟨a, ha, heq⟩ := @ih (n + 1) true hin
        exact ⟨a, List.mem_cons_of_mem _ (List.mem_cons_of_mem _ ha), heq⟩
      · obtain ⟨a, ha, heq⟩ := @ih n (highmem || decide (limit < c.start ∨ c.start < physOffset)) hin
        exact ⟨a, List.mem_cons_of_mem _ ha, heq⟩

/-- A bank that does not straddle the limit, or has room to be split, ends where one made does. -/
theorem divide_ends (hapart : l.Pairwise fun a b => a.start + a.size ≤ b.start) (hb : b ∈ l)
    (hroom : Straddles limit b → n < maxBanks) :
    ∃ a ∈ divide limit n highmem l, a.start + a.size = b.start + b.size := by
  induction l generalizing n highmem with
  | nil => cases hb
  | cons c rest ih =>
    obtain ⟨hfirst, hrest⟩ := List.pairwise_cons.mp hapart
    rw [divide]
    rcases List.mem_cons.mp hb with rfl | hin
    · split_ifs with hcross hfull
      · exact absurd (hroom hcross) (not_lt.mpr hfull)
      · obtain ⟨hlow, hhigh⟩ := hcross
        refine ⟨_, List.mem_cons_of_mem _ List.mem_cons_self, ?_⟩
        dsimp only
        omega
      · exact ⟨_, List.mem_cons_self, rfl⟩
    · split_ifs with hcross hfull
      · obtain ⟨a, ha, heq⟩ :=
          @ih n (highmem || decide (limit < c.start ∨ c.start < physOffset)) hrest hin hroom
        exact ⟨a, List.mem_cons_of_mem _ ha, heq⟩
      · have hafter : ¬Straddles limit b := fun h => by
          have := hfirst b hin
          have := hcross.2
          have := h.1
          omega
        obtain ⟨a, ha, heq⟩ := @ih (n + 1) true hrest hin fun h => absurd h hafter
        exact ⟨a, List.mem_cons_of_mem _ (List.mem_cons_of_mem _ ha), heq⟩
      · obtain ⟨a, ha, heq⟩ :=
          @ih n (highmem || decide (limit < c.start ∨ c.start < physOffset)) hrest hin hroom
        exact ⟨a, List.mem_cons_of_mem _ ha, heq⟩

/-- In a full array a bank that straddles the limit is cut there. -/
theorem divide_cut (hfull : maxBanks ≤ n)
    (hle : ∀ b ∈ l, ¬Straddles limit b → b.start + b.size ≤ limit) :
    ∀ a ∈ divide limit n highmem l, a.start + a.size ≤ limit := by
  induction l generalizing highmem with
  | nil => exact fun a ha => by cases ha
  | cons b rest ih =>
    have hrest := fun c hc => hle c (List.mem_cons_of_mem b hc)
    intro a ha
    rw [divide] at ha
    split_ifs at ha with hcross
    · rcases List.mem_cons.mp ha with rfl | ha
      · have := hcross.1
        dsimp only
        omega
      · exact ih hrest a ha
    · rcases List.mem_cons.mp ha with rfl | ha
      · exact hle b List.mem_cons_self hcross
      · exact ih hrest a ha

/-- No bank is added to a full array. -/
theorem separate_length (limit : ℕ) (highmem : Bool) (hn : k + l.length = n) (hmax : n ≤ maxBanks) :
    k + (separate limit n highmem l).length ≤ maxBanks := by
  induction l generalizing k n highmem with
  | nil =>
    rw [separate, List.length_nil]
    rw [List.length_nil] at hn
    omega
  | cons b rest ih =>
    rw [List.length_cons] at hn
    rw [separate]
    split_ifs with hcross hfull
    · rw [List.length_cons]
      have hrest : k + 1 + rest.length = n := by omega
      have := ih (highmem || decide (limit < b.start)) hrest hmax
      omega
    · rw [List.length_cons, List.length_cons]
      have hrest : k + 2 + rest.length = n + 1 := by omega
      have := ih true hrest (by omega)
      omega
    · rw [List.length_cons]
      have hrest : k + 1 + rest.length = n := by omega
      have := ih (highmem || decide (limit < b.start)) hrest hmax
      omega

/-- With room for a bank that straddles the limit, the bytes stay. -/
theorem separate_bytes (hroom : ∀ b ∈ l, Straddles limit b → n < maxBanks)
    (hapart : l.Pairwise fun a b => a.start + a.size ≤ b.start) :
    bytes (separate limit n highmem l) = bytes l := by
  have hcons : ∀ (b : Membank) (l : List Membank) (x : ℕ),
      x ∈ bytes (b :: l) ↔ (b.start ≤ x ∧ x < b.start + b.size) ∨ x ∈ bytes l := by
    intro b l x
    simp only [bytes, Set.mem_ofPred_eq, List.mem_cons, exists_eq_or_imp]
  induction l generalizing n highmem with
  | nil => rw [separate]
  | cons b rest ih =>
    obtain ⟨hfirst, hrest⟩ := List.pairwise_cons.mp hapart
    ext x
    rw [separate]
    split_ifs with hcross hfull
    · exact absurd (hroom b List.mem_cons_self hcross) (not_lt.mpr hfull)
    · have hnone : ∀ a ∈ rest, Straddles limit a → n + 1 < maxBanks := fun a ha hin => by
        have := hfirst a ha
        have := hcross.2
        have := hin.1
        omega
      rw [hcons, hcons, hcons, ih hnone hrest]
      obtain ⟨hlow, hhigh⟩ := hcross
      dsimp only
      have hsum : limit + (b.size - (limit - b.start)) = b.start + b.size := by omega
      have hlimit : b.start + (limit - b.start) = limit := by omega
      rw [hsum, hlimit, ← or_assoc]
      refine or_congr ⟨fun h => ?_, fun h => ?_⟩ Iff.rfl
      · omega
      · omega
    · rw [hcons, hcons, ih (fun a ha => hroom a (List.mem_cons_of_mem _ ha)) hrest]

/-- The banks made start no lower than a bound of the banks given. -/
theorem separate_start {low : ℕ} (hlow : ∀ b ∈ l, low ≤ b.start) :
    ∀ b ∈ separate limit n highmem l, low ≤ b.start := by
  induction l generalizing n highmem with
  | nil => exact fun b hb => by cases hb
  | cons a rest ih =>
    have ha := hlow a List.mem_cons_self
    have hrest := fun b hb => hlow b (List.mem_cons_of_mem a hb)
    intro b hb
    rw [separate] at hb
    split_ifs at hb with hcross hfull
    · rcases List.mem_cons.mp hb with rfl | hb
      · exact ha
      · exact ih hrest b hb
    · rcases List.mem_cons.mp hb with rfl | hb
      · exact ha
      · rcases List.mem_cons.mp hb with rfl | hb
        · exact ha.trans hcross.1.le
        · exact ih hrest b hb
    · rcases List.mem_cons.mp hb with rfl | hb
      · exact ha
      · exact ih hrest b hb

/-- The banks made are sorted and disjoint. -/
theorem separate_apart (hapart : l.Pairwise fun a b => a.start + a.size ≤ b.start) :
    (separate limit n highmem l).Pairwise fun a b => a.start + a.size ≤ b.start := by
  induction l generalizing n highmem with
  | nil =>
    rw [separate]
    exact .nil
  | cons a rest ih =>
    obtain ⟨hfirst, hrest⟩ := List.pairwise_cons.mp hapart
    rw [separate]
    split_ifs with hcross hfull
    · obtain ⟨hlow, hhigh⟩ := hcross
      refine .cons (fun b hb => ?_) (ih hrest)
      have := separate_start hfirst b hb
      dsimp only
      omega
    · obtain ⟨hlow, hhigh⟩ := hcross
      refine .cons (fun b hb => ?_) (.cons (fun b hb => ?_) (ih hrest))
      · rcases List.mem_cons.mp hb with rfl | hb
        · dsimp only
          omega
        · have := separate_start hfirst b hb
          dsimp only
          omega
      · have := separate_start hfirst b hb
        dsimp only
        omega
    · exact .cons (fun b hb => separate_start hfirst b hb) (ih hrest)

/-- High banks start at or above the limit, and low ones end at or below it unless one begins there. -/
theorem separate_sides (hroom : ∀ b ∈ l, Straddles limit b → n < maxBanks)
    (hapart : l.Pairwise fun a b => a.start + a.size ≤ b.start)
    (hhigh : highmem = true → ∀ b ∈ l, limit ≤ b.start)
    (hlimit : ∀ b ∈ l, b.start = limit → b.size = 0) :
    ∀ b ∈ separate limit n highmem l,
      (b.highmem = false → b.start + b.size ≤ limit) ∧ (b.highmem = true → limit ≤ b.start) := by
  induction l generalizing n highmem with
  | nil => exact fun b hb => by cases hb
  | cons a rest ih =>
    obtain ⟨hfirst, hrest⟩ := List.pairwise_cons.mp hapart
    have hroom' : ∀ b ∈ rest, Straddles limit b → n < maxBanks :=
      fun b hb => hroom b (List.mem_cons_of_mem _ hb)
    have hlimit' : ∀ b ∈ rest, b.start = limit → b.size = 0 :=
      fun b hb => hlimit b (List.mem_cons_of_mem _ hb)
    have hmark : (highmem || decide (limit < a.start)) = true → limit ≤ a.start := by
      intro hm
      rcases Bool.or_eq_true_iff.mp hm with hm | hm
      · exact hhigh hm a List.mem_cons_self
      · exact (of_decide_eq_true hm).le
    have hnext : (highmem || decide (limit < a.start)) = true → ∀ b ∈ rest, limit ≤ b.start :=
      fun hm b hb => (hmark hm).trans ((Nat.le_add_right _ _).trans (hfirst b hb))
    intro b hb
    rw [separate] at hb
    split_ifs at hb with hcross hfull
    · exact absurd (hroom a List.mem_cons_self hcross) (not_lt.mpr hfull)
    · obtain ⟨hlow, hup⟩ := hcross
      rcases List.mem_cons.mp hb with rfl | hb
      · refine ⟨fun _ => ?_, fun hm => hmark hm |>.trans ?_⟩
        · dsimp only
          omega
        · exact le_rfl
      · rcases List.mem_cons.mp hb with rfl | hb
        · exact ⟨fun hm => (by cases hm), fun _ => le_rfl⟩
        · have hafter : ∀ c ∈ rest, limit < c.start := fun c hc => hup.trans_le (hfirst c hc)
          refine ih (fun c hc hin => ?_) hrest (fun _ c hc => (hafter c hc).le) hlimit' b hb
          exact absurd hin.1 (not_lt.mpr (hafter c hc).le)
    · rcases List.mem_cons.mp hb with rfl | hb
      · refine ⟨fun hm => ?_, hmark⟩
        have hnot : ¬limit < a.start := fun hlt => by
          rw [decide_eq_true hlt, Bool.or_true] at hm
          cases hm
        have hzero := hlimit a List.mem_cons_self
        rw [Straddles] at hcross
        dsimp only
        omega
      · exact ih hroom' hrest hnext hlimit' b hb

/-- A bank that begins at the limit is marked low. -/
theorem separate_atLimit (hapart : l.Pairwise fun a b => a.start + a.size ≤ b.start) (hb : b ∈ l)
    (hstart : b.start = limit) : ⟨limit, b.size, false⟩ ∈ separate limit n false l := by
  induction l with
  | nil => cases hb
  | cons a rest ih =>
    obtain ⟨hfirst, hrest⟩ := List.pairwise_cons.mp hapart
    have ha : a.start + a.size ≤ limit ∨ a = b := by
      rcases List.mem_cons.mp hb with rfl | hin
      · exact .inr rfl
      · exact .inl (hstart ▸ hfirst b hin)
    have hle : a.start ≤ limit := by
      rcases ha with hend | rfl
      · omega
      · exact hstart.le
    have hcross : ¬Straddles limit a := by
      rintro ⟨h1, h2⟩
      rcases ha with hend | rfl
      · omega
      · omega
    have hmark : (false || decide (limit < a.start)) = false := by
      rw [decide_eq_false (not_lt.mpr hle), Bool.or_false]
    rw [separate, hmark, if_neg hcross]
    rcases List.mem_cons.mp hb with rfl | hin
    · rw [hstart]
      exact List.mem_cons_self
    · exact List.mem_cons_of_mem _ (ih hrest hin)

/-- The check separates low from high banks, with all their bytes, exactly when no bank with bytes
begins at the limit. -/
theorem sanityCheckMeminfo_iff (fuel cacheid : ℕ) (arg : Option ℕ) (mi : Meminfo)
    (hvalid : BanksValid mi.banks) (hcount : mi.nrBanks ≤ maxBanks)
    (hroom : (∃ b ∈ mi.banks, Straddles (lowmemLimit (vmallocMin arg)) b) → mi.nrBanks < maxBanks)
    (hfuel : mi.nrBanks < fuel) :
    (∃ mi', sanityCheckMeminfo fuel (vmallocMin arg) cacheid mi = some mi' ∧
        Separated (lowmemLimit (vmallocMin arg)) mi.banks mi'.banks) ↔
      ∀ b ∈ mi.banks, b.start = lowmemLimit (vmallocMin arg) → b.size = 0 := by
  obtain ⟨mi', hcheck, hbanks⟩ := sanityCheckMeminfo_separates arg cacheid hvalid hfuel
  have hroom' : ∀ b ∈ mi.banks, Straddles (lowmemLimit (vmallocMin arg)) b → mi.nrBanks < maxBanks :=
    fun b hb hin => hroom ⟨b, hb, hin⟩
  constructor
  · rintro ⟨mi'', hcheck', hsep⟩ b hb hstart
    rw [hcheck, Option.some.injEq] at hcheck'
    rw [← hcheck', hbanks] at hsep
    have hlow := hsep.low _ (separate_atLimit hvalid.apart hb hstart) rfl
    dsimp only at hlow
    omega
  · intro hlimit
    have hmark : false = true → ∀ b ∈ mi.banks, lowmemLimit (vmallocMin arg) ≤ b.start :=
      fun hm => by cases hm
    have hsides := separate_sides hroom' hvalid.apart hmark hlimit
    have hlength : mi.banks.length = mi.nrBanks := window_length _ _ _
    refine ⟨mi', hcheck, ?_⟩
    rw [hbanks]
    refine ⟨?_, separate_apart hvalid.apart, separate_bytes hroom' hvalid.apart,
      fun b hb => (hsides b hb).1, fun b hb => (hsides b hb).2⟩
    have hnone : 0 + mi.banks.length = mi.nrBanks := by rw [Nat.zero_add, hlength]
    have hmax := separate_length (lowmemLimit (vmallocMin arg)) false hnone hcount
    omega

/-- One bank of lowmem and one that straddles the default limit. -/
def straddling : Meminfo :=
  ⟨2, fun i => if i = 0 then ⟨0x50000000, 0x1000000, false⟩ else ⟨0x60000000, 0x20000000, false⟩⟩

/-- The second bank is split there. -/
theorem sanityCheckMeminfo_iff_straddling :
    ∃ mi', sanityCheckMeminfo 3 (vmallocMin none) 0 straddling = some mi' ∧
      Separated (lowmemLimit (vmallocMin none)) straddling.banks mi'.banks :=
  (sanityCheckMeminfo_iff 3 0 none straddling
    ⟨by decide +kernel, by decide +kernel, by decide +kernel⟩ (by decide +kernel)
    (fun _ => by decide +kernel) (by decide +kernel)).mpr (by decide +kernel)

/-- Two banks, of which the second one begins at the default limit. -/
def meeting : Meminfo :=
  ⟨2, fun i => if i = 0 then ⟨0x50000000, 0x1000000, false⟩ else ⟨0x68800000, 0x1000000, false⟩⟩

/-- It is left as low memory, although it ends above the limit. -/
theorem meeting_counterexample :
    BanksValid meeting.banks ∧ meeting.nrBanks < maxBanks ∧
      lowmemLimit (vmallocMin none) = 0x68800000 ∧
      ¬∃ mi', sanityCheckMeminfo 3 (vmallocMin none) 0 meeting = some mi' ∧
        Separated (lowmemLimit (vmallocMin none)) meeting.banks mi'.banks := by
  have hvalid : BanksValid meeting.banks :=
    ⟨by decide +kernel, by decide +kernel, by decide +kernel⟩
  have hlimit : lowmemLimit (vmallocMin none) = 0x68800000 := by decide +kernel
  refine ⟨hvalid, by decide +kernel, hlimit, ?_⟩
  rintro ⟨mi', hcheck, hsep⟩
  obtain ⟨mi'', hcheck', hbanks⟩ := sanityCheckMeminfo_separates none 0 hvalid (show 2 < 3 by decide)
  rw [hcheck', Option.some.injEq] at hcheck
  rw [← hcheck, hbanks] at hsep
  have hmeets : (⟨0x68800000, 0x1000000, false⟩ : Membank) ∈ meeting.banks := by decide +kernel
  have hlow := hsep.low _ (separate_atLimit hvalid.apart hmeets hlimit.symm) rfl
  rw [hlimit] at hlow
  dsimp only at hlow
  omega

end BiscuitOS.MeminfoLimit
