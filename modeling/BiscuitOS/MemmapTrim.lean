import BiscuitOS.MemMap
import BiscuitOS.MeminfoModel

/-!
# Trimming the memory map

`free_memmap` and `free_unused_memmap` of `arch/arm/mm/init.c`. What they give
to `free_bootmem` is a list of addresses and sizes. The page that holds the end
of the descriptors in front of a gap is given back whole, since `PAGE_ALIGN`
rounds down.
-/

namespace BiscuitOS.MemmapTrim

open MachineWord MemMap MeminfoModel

/-- `free_memmap`: the calls of `free_bootmem`. -/
def freeMemmap (v : MapBank) (memMap start stop : ℕ) : List (ℕ × ℕ) :=
  let startPg := wrap 64 (pfnToPage v memMap (wrapSub 64 start 1) + v.sizeofPage)
  let endPg := pfnToPage v memMap stop
  let pg := alignDown 32 (memToPhys v startPg) 4096
  let pgend := alignDown 32 (memToPhys v endPg) 4096
  if pg < pgend then [(pg, pgend - pg)] else []

/-- The loop of `free_unused_memmap` with `prev_bank_end`. -/
def freeUnusedFrom (v : MapBank) (memMap prev : ℕ) : List Membank → List (ℕ × ℕ)
  | [] => []
  | b :: rest =>
    (if prev ≠ 0 ∧ prev < bankPfnStart b then freeMemmap v memMap prev (bankPfnStart b) else []) ++
      freeUnusedFrom v memMap (alignUp 64 (bankPfnEnd b) maxOrderNrPages) rest

/-- `free_unused_memmap`: the calls of `free_bootmem`. -/
def freeUnusedMemmap (v : MapBank) (memMap : ℕ) (banks : List Membank) : List (ℕ × ℕ) :=
  freeUnusedFrom v memMap 0 banks

/-- The first frame of a bank whose descriptor is in use. -/
def usedStart (b : Membank) : ℕ := b.start / 4096

/-- The frame behind the last one of a bank whose descriptor is in use. -/
def usedEnd (b : Membank) : ℕ :=
  ((b.start + b.size) / 4096 + (maxOrderNrPages - 1)) / maxOrderNrPages * maxOrderNrPages

/-- The physical address of a descriptor. -/
def place (v : MapBank) (memMap pfn : ℕ) : ℤ := memMap + ((pfn : ℤ) - physPfnOffset) * v.sizeofPage

/-- The page a descriptor begins in. -/
def pageOf (v : MapBank) (memMap pfn : ℕ) : ℤ := place v memMap pfn / 4096 * 4096

/-- Banks that are sorted and disjoint, and whose descriptors have physical addresses. -/
structure Placed (v : MapBank) (memMap : ℕ) (banks : List Membank) : Prop where
  /-- No bank wraps. -/
  fits : ∀ b ∈ banks, b.start < 2 ^ 32 ∧ b.start + b.size ≤ 2 ^ 32
  /-- Each one ends before the next ones start. -/
  apart : banks.Pairwise fun a b => a.start + a.size ≤ b.start
  /-- The descriptors do not start below the physical memory. -/
  low : ∀ b ∈ banks, 0 ≤ place v memMap (usedStart b)
  /-- They do not end above it. -/
  high : ∀ b ∈ banks, place v memMap (usedEnd b) < 2 ^ 32

/-- What trimming is to give back. -/
structure Trimmed (v : MapBank) (memMap : ℕ) (banks : List Membank) (freed : List (ℕ × ℕ)) :
    Prop where
  /-- Whole pages. -/
  pages : ∀ r ∈ freed, 4096 ∣ r.1 ∧ 4096 ∣ r.2
  /-- Pages of the map, which begins with the block of the first bank. -/
  inside : ∀ r ∈ freed,
    (∃ b ∈ banks, place v memMap (usedStart b / maxOrderNrPages * maxOrderNrPages) ≤ r.1) ∧
      ∃ b ∈ banks, ((r.1 + r.2 : ℕ) : ℤ) ≤ place v memMap (usedEnd b)
  /-- No byte of a descriptor in use. -/
  unused : ∀ r ∈ freed, ∀ b ∈ banks, ∀ pfn, usedStart b ≤ pfn → pfn < usedEnd b →
    place v memMap pfn + v.sizeofPage ≤ r.1 ∨ ((r.1 + r.2 : ℕ) : ℤ) ≤ place v memMap pfn
  /-- No page twice. -/
  once : freed.Pairwise fun r r' => r.1 + r.2 ≤ r'.1

/-- Two banks follow each other with pages of descriptors between them that are given back. -/
def Gap (v : MapBank) (memMap : ℕ) (a b : Membank) : Prop :=
  0 < usedEnd a ∧ usedEnd a < usedStart b ∧
    pageOf v memMap (usedEnd a) < pageOf v memMap (usedStart b)

/-- The descriptors of some banks end no later than a page begins, and the map has begun. -/
def EndBy (v : MapBank) (memMap : ℕ) (banks : List Membank) (page : ℤ) : Prop :=
  (∃ b ∈ banks, place v memMap (usedStart b / maxOrderNrPages * maxOrderNrPages) ≤ page) ∧
    ∀ b ∈ banks, usedStart b < usedEnd b → place v memMap (usedEnd b) ≤ page

variable {v : MapBank} {memMap p q pfn : ℕ} {a b c : Membank} {banks before rest : List Membank}

/-- Descriptors of later frames lie higher. -/
theorem place_mono (v : MapBank) (memMap : ℕ) (h : p ≤ q) : place v memMap p ≤ place v memMap q := by
  have hmul : ((p : ℤ) - physPfnOffset) * v.sizeofPage ≤ ((q : ℤ) - physPfnOffset) * v.sizeofPage :=
    mul_le_mul_of_nonneg_right (by omega) (Int.natCast_nonneg _)
  rw [place, place]
  omega

/-- The next descriptor follows at once. -/
theorem place_succ (v : MapBank) (memMap pfn : ℕ) :
    place v memMap (pfn + 1) = place v memMap pfn + v.sizeofPage := by
  rw [place, place]
  push_cast
  ring

/-- A page begins no later than what lies in it. -/
theorem pageOf_le (v : MapBank) (memMap pfn : ℕ) :
    pageOf v memMap pfn ≤ place v memMap pfn ∧ place v memMap pfn < pageOf v memMap pfn + 4096 := by
  rw [pageOf]
  omega

/-- Pages are in the order of the frames. -/
theorem pageOf_mono (h : p ≤ q) : pageOf v memMap p ≤ pageOf v memMap q := by
  have := place_mono v memMap h
  rw [pageOf, pageOf]
  omega

/-- A descriptor is found at its place, cut to 32 bits. -/
theorem memToPhys_pfnToPage (v : MapBank) (memMap pfn : ℕ) :
    (memToPhys v (pfnToPage v memMap pfn) : ℤ) = place v memMap pfn % 2 ^ 32 := by
  have hsub : (wrapSub 64 pfn physPfnOffset : ℤ) ≡ (pfn : ℤ) - physPfnOffset [ZMOD 2 ^ 64] := by
    have ho : physPfnOffset = 0x50000 := rfl
    rw [Int.ModEq, wrapSub, ho]
    omega
  have hsum := (hsub.mul_right (v.sizeofPage : ℤ)).add_left (memMap : ℤ)
  rw [pfnToPage, memToPhys_physToMem_wrap, wrap, wrap, place]
  rw [Int.ModEq] at hsum
  push_cast at hsum ⊢
  generalize (memMap : ℤ) + (wrapSub 64 pfn physPfnOffset : ℤ) * v.sizeofPage = x at hsum ⊢
  generalize (memMap : ℤ) + ((pfn : ℤ) - physPfnOffset) * v.sizeofPage = y at hsum ⊢
  omega

/-- The page that a physical address is rounded down to. -/
theorem alignDown_place {x : ℕ} (hx : (x : ℤ) = place v memMap p) (hhigh : place v memMap p < 2 ^ 32) :
    (alignDown 32 x 4096 : ℤ) = pageOf v memMap p := by
  have hsize : (4096 : ℕ) = 2 ^ 12 := by decide
  rw [hsize, alignDown_two_pow (by omega) (by decide), pageOf]
  omega

/-- The page that `PAGE_ALIGN` makes of the end of the descriptor before a frame is the page of that
frame's descriptor. -/
theorem startPage_eq (hpos : 0 < p) (hlow : 0 ≤ place v memMap p) (hhigh : place v memMap p < 2 ^ 32)
    (hp : p < 2 ^ 64) :
    (alignDown 32 (memToPhys v (wrap 64 (pfnToPage v memMap (wrapSub 64 p 1) + v.sizeofPage))) 4096 :
      ℤ) = pageOf v memMap p := by
  have hprev : wrapSub 64 p 1 = p - 1 := wrapSub_of_le hp hpos
  have hplace := place_succ v memMap (p - 1)
  rw [Nat.sub_add_cancel hpos] at hplace
  have hphys := memToPhys_pfnToPage v memMap (p - 1)
  refine alignDown_place ?_ hhigh
  rw [memToPhys, wrap] at hphys
  rw [hprev, memToPhys, wrap, wrap]
  omega

/-- The page that `PAGE_MASK` makes of a frame's descriptor. -/
theorem endPage_eq (hlow : 0 ≤ place v memMap p) (hhigh : place v memMap p < 2 ^ 32) :
    (alignDown 32 (memToPhys v (pfnToPage v memMap p)) 4096 : ℤ) = pageOf v memMap p := by
  have hphys := memToPhys_pfnToPage v memMap p
  exact alignDown_place (by omega) hhigh

/-- The calls of `free_memmap`. -/
theorem mem_freeMemmap (hpos : 0 < p) (hp : p < 2 ^ 64) (hle : p ≤ q) (hlow : 0 ≤ place v memMap p)
    (hhigh : place v memMap q < 2 ^ 32) {r : ℕ × ℕ} :
    r ∈ freeMemmap v memMap p q ↔
      pageOf v memMap p < pageOf v memMap q ∧ (r.1 : ℤ) = pageOf v memMap p ∧
        ((r.1 + r.2 : ℕ) : ℤ) = pageOf v memMap q := by
  have hmono := place_mono v memMap hle
  have hstart := startPage_eq hpos hlow (hmono.trans_lt hhigh) hp
  have hstop := endPage_eq (hlow.trans hmono) hhigh
  rw [freeMemmap]
  generalize alignDown 32 (memToPhys v (wrap 64 (pfnToPage v memMap (wrapSub 64 p 1) +
    v.sizeofPage))) 4096 = pg at hstart ⊢
  generalize alignDown 32 (memToPhys v (pfnToPage v memMap q)) 4096 = pgend at hstop ⊢
  rw [← hstart, ← hstop]
  by_cases hlt : pg < pgend
  · rw [if_pos hlt, List.mem_singleton, Prod.ext_iff]
    dsimp only
    omega
  · rw [if_neg hlt]
    refine ⟨fun h => (List.not_mem_nil h).elim, fun ⟨h, _⟩ => ?_⟩
    exact absurd (Int.ofNat_lt.mp h) hlt

/-- They are one at most. -/
theorem pairwise_freeMemmap (v : MapBank) (memMap p q : ℕ) :
    (freeMemmap v memMap p q).Pairwise fun r r' => r.1 + r.2 ≤ r'.1 := by
  rw [freeMemmap]
  split_ifs
  · exact List.pairwise_singleton _ _
  · exact .nil

/-- The frames of a bank, in the order of the bank's ends. -/
theorem used_le (a : Membank) : usedStart a ≤ usedEnd a := by
  have hn : maxOrderNrPages = 1024 := rfl
  rw [usedStart, usedEnd, hn]
  omega

/-- The frames of a bank and those of one behind it. -/
theorem used_mono (h : a.start + a.size ≤ b.start) :
    usedStart a ≤ usedStart b ∧ usedEnd a ≤ usedEnd b := by
  have hn : maxOrderNrPages = 1024 := rfl
  rw [usedStart, usedStart, usedEnd, usedEnd, hn]
  omega

/-- `bank_pfn_start`. -/
theorem bankPfnStart_eq (b : Membank) : bankPfnStart b = usedStart b :=
  Nat.shiftRight_eq_div_pow b.start 12

/-- `prev_bank_end` behind a bank that has one behind it. -/
theorem prevBankEnd_eq (h : a.start + a.size < 2 ^ 32) :
    alignUp 64 (bankPfnEnd a) maxOrderNrPages = usedEnd a := by
  have hn : maxOrderNrPages = 2 ^ 10 := rfl
  have hend : bankPfnEnd a = (a.start + a.size) / 4096 := by
    rw [bankPfnEnd, wrap_of_lt h]
    exact Nat.shiftRight_eq_div_pow _ 12
  rw [hend, usedEnd, hn]
  obtain ⟨hle, hlt, c, hc⟩ := alignUp_spec (w := 64) (x := (a.start + a.size) / 4096) (k := 10)
    (by decide) (by omega)
  omega

/-- What is given back between two banks. -/
theorem mem_between (hlow : 0 ≤ place v memMap (usedStart a)) (hend : a.start + a.size ≤ b.start)
    (hfits : b.start < 2 ^ 32) (hhigh : place v memMap (usedEnd b) < 2 ^ 32) {r : ℕ × ℕ} :
    (r ∈ if alignUp 64 (bankPfnEnd a) maxOrderNrPages ≠ 0 ∧
        alignUp 64 (bankPfnEnd a) maxOrderNrPages < bankPfnStart b then
      freeMemmap v memMap (alignUp 64 (bankPfnEnd a) maxOrderNrPages) (bankPfnStart b) else []) ↔
      Gap v memMap a b ∧ (r.1 : ℤ) = pageOf v memMap (usedEnd a) ∧
        ((r.1 + r.2 : ℕ) : ℤ) = pageOf v memMap (usedStart b) := by
  have hsmall : usedStart b < 2 ^ 32 := by
    rw [usedStart]
    omega
  have hlow' := hlow.trans (place_mono _ _ (used_le a))
  have hhigh' := (place_mono _ _ (used_le b)).trans_lt hhigh
  rw [prevBankEnd_eq (hend.trans_lt hfits), bankPfnStart_eq, Gap]
  by_cases hgap : usedEnd a ≠ 0 ∧ usedEnd a < usedStart b
  · rw [if_pos hgap, mem_freeMemmap (Nat.pos_of_ne_zero hgap.1) (by omega) hgap.2.le hlow' hhigh']
    have hpos := Nat.pos_of_ne_zero hgap.1
    exact ⟨fun ⟨h1, h2⟩ => ⟨⟨hpos, hgap.2, h1⟩, h2⟩, fun ⟨h1, h2⟩ => ⟨h1.2.2, h2⟩⟩
  · rw [if_neg hgap]
    exact ⟨fun h => (List.not_mem_nil h).elim,
      fun ⟨h1, _⟩ => absurd ⟨h1.1.ne', h1.2.1⟩ hgap⟩

/-- The banks behind the first one are placed as well. -/
theorem Placed.tail (h : Placed v memMap (a :: rest)) : Placed v memMap rest :=
  ⟨fun b hb => h.fits b (List.mem_cons_of_mem _ hb), (List.pairwise_cons.mp h.apart).2,
    fun b hb => h.low b (List.mem_cons_of_mem _ hb), fun b hb => h.high b (List.mem_cons_of_mem _ hb)⟩

/-- What is given back behind a bank, by the gaps. -/
theorem mem_freeUnusedFrom (h : Placed v memMap (a :: rest)) {r : ℕ × ℕ} :
    r ∈ freeUnusedFrom v memMap (alignUp 64 (bankPfnEnd a) maxOrderNrPages) rest ↔
      ∃ before b c after, a :: rest = before ++ b :: c :: after ∧ Gap v memMap b c ∧
        (r.1 : ℤ) = pageOf v memMap (usedEnd b) ∧
        ((r.1 + r.2 : ℕ) : ℤ) = pageOf v memMap (usedStart c) := by
  induction rest generalizing a with
  | nil =>
    refine ⟨fun hr => (List.not_mem_nil hr).elim, fun ⟨before, b, c, after, hsplit, _⟩ => ?_⟩
    have hlen := congrArg List.length hsplit
    rw [List.length_append, List.length_cons, List.length_cons, List.length_cons, List.length_nil] at hlen
    omega
  | cons d rest ih =>
    have hd : d ∈ a :: d :: rest := List.mem_cons_of_mem _ List.mem_cons_self
    have hend := (List.pairwise_cons.mp h.apart).1 d List.mem_cons_self
    rw [freeUnusedFrom, List.mem_append, ih h.tail,
      mem_between (h.low a List.mem_cons_self) hend (h.fits d hd).1 (h.high d hd)]
    constructor
    · rintro (hr | ⟨before, b, c, after, hsplit, hr⟩)
      · exact ⟨[], a, d, rest, rfl, hr⟩
      · exact ⟨a :: before, b, c, after, congrArg (List.cons a) hsplit, hr⟩
    · rintro ⟨before, b, c, after, hsplit, hr⟩
      cases before with
      | nil =>
        rw [List.nil_append, List.cons.injEq, List.cons.injEq] at hsplit
        obtain ⟨rfl, rfl, rfl⟩ := hsplit
        exact .inl hr
      | cons e before =>
        rw [List.cons_append, List.cons.injEq] at hsplit
        exact .inr ⟨before, b, c, after, hsplit.2, hr⟩

/-- What is given back behind a bank lies behind it, one after the other. -/
theorem pairwise_freeUnusedFrom (h : Placed v memMap (a :: rest)) :
    (∀ r ∈ freeUnusedFrom v memMap (alignUp 64 (bankPfnEnd a) maxOrderNrPages) rest,
        pageOf v memMap (usedEnd a) ≤ (r.1 : ℤ)) ∧
      (freeUnusedFrom v memMap (alignUp 64 (bankPfnEnd a) maxOrderNrPages) rest).Pairwise
        fun r r' => r.1 + r.2 ≤ r'.1 := by
  induction rest generalizing a with
  | nil => exact ⟨fun r hr => (List.not_mem_nil hr).elim, .nil⟩
  | cons b rest ih =>
    obtain ⟨hbehind, hpairs⟩ := ih h.tail
    have hb : b ∈ a :: b :: rest := List.mem_cons_of_mem _ List.mem_cons_self
    have hend := (List.pairwise_cons.mp h.apart).1 b List.mem_cons_self
    have hbetween := fun r : ℕ × ℕ =>
      mem_between (r := r) (h.low a List.mem_cons_self) hend (h.fits b hb).1 (h.high b hb)
    rw [freeUnusedFrom]
    constructor
    · intro r hr
      rcases List.mem_append.mp hr with hr | hr
      · exact ((hbetween r).mp hr).2.1.ge
      · exact (pageOf_mono (used_mono hend).2).trans (hbehind r hr)
    · refine List.pairwise_append.mpr ⟨?_, hpairs, fun r hr r' hr' => ?_⟩
      · split_ifs
        · exact pairwise_freeMemmap _ _ _ _
        · exact .nil
      · have hlast := ((hbetween r).mp hr).2.2
        have hnext := (pageOf_mono (used_le b)).trans (hbehind r' hr')
        omega

/-- What is given back, by the gaps. -/
theorem mem_freeUnusedMemmap (h : Placed v memMap banks) {r : ℕ × ℕ} :
    r ∈ freeUnusedMemmap v memMap banks ↔
      ∃ before b c after, banks = before ++ b :: c :: after ∧ Gap v memMap b c ∧
        (r.1 : ℤ) = pageOf v memMap (usedEnd b) ∧
        ((r.1 + r.2 : ℕ) : ℤ) = pageOf v memMap (usedStart c) := by
  cases banks with
  | nil =>
    refine ⟨fun hr => (List.not_mem_nil hr).elim, fun ⟨before, b, c, after, hsplit, _⟩ => ?_⟩
    exact absurd hsplit.symm (List.append_ne_nil_of_right_ne_nil _ (List.cons_ne_nil _ _))
  | cons a rest =>
    rw [← mem_freeUnusedFrom h, freeUnusedMemmap, freeUnusedFrom, if_neg (fun hne => hne.1 rfl),
      List.nil_append]

/-- It is given back once. -/
theorem pairwise_freeUnusedMemmap (h : Placed v memMap banks) :
    (freeUnusedMemmap v memMap banks).Pairwise fun r r' => r.1 + r.2 ≤ r'.1 := by
  cases banks with
  | nil => exact .nil
  | cons a rest =>
    rw [freeUnusedMemmap, freeUnusedFrom, if_neg (fun hne => hne.1 rfl), List.nil_append]
    exact (pairwise_freeUnusedFrom h).2

/-- The banks in front of a gap and those behind it. -/
theorem Placed.around {after : List Membank} (h : Placed v memMap (before ++ b :: c :: after))
    {d : Membank} (hd : d ∈ before ++ b :: c :: after) :
    (d ∈ before ++ [b] ∧ usedStart d ≤ usedStart b ∧ usedEnd d ≤ usedEnd b) ∨
      usedStart c ≤ usedStart d ∧ usedStart b ≤ usedStart d := by
  obtain ⟨-, hback, hacross⟩ := List.pairwise_append.mp h.apart
  obtain ⟨hb, hback'⟩ := List.pairwise_cons.mp hback
  rcases List.mem_append.mp hd with hd | hd
  · exact .inl ⟨List.mem_append_left _ hd, used_mono (hacross d hd b List.mem_cons_self)⟩
  · rcases List.mem_cons.mp hd with rfl | hd
    · exact .inl ⟨List.mem_append_right _ List.mem_cons_self, le_rfl, le_rfl⟩
    · have hbd := (used_mono (hb d hd)).1
      rcases List.mem_cons.mp hd with rfl | hd
      · exact .inr ⟨le_rfl, hbd⟩
      · exact .inr ⟨(used_mono ((List.pairwise_cons.mp hback').1 d hd)).1, hbd⟩

/-- A bank in front of a gap, or the last one there. -/
theorem Placed.front {after : List Membank} (h : Placed v memMap (before ++ b :: after)) {d : Membank}
    (hd : d ∈ before ++ [b]) : d ∈ before ++ b :: after ∧ usedEnd d ≤ usedEnd b := by
  rcases List.mem_append.mp hd with hd | hd
  · have hcross := (List.pairwise_append.mp h.apart).2.2 d hd b List.mem_cons_self
    exact ⟨List.mem_append_left _ hd, (used_mono hcross).2⟩
  · rw [List.mem_singleton.mp hd]
    exact ⟨List.mem_append_right _ List.mem_cons_self, le_rfl⟩

/-- What a gap gives back. -/
theorem Gap.freed {after : List Membank} (h : Placed v memMap (before ++ b :: c :: after))
    (hgap : Gap v memMap b c) :
    ∃ r ∈ freeUnusedMemmap v memMap (before ++ b :: c :: after),
      (r.1 : ℤ) = pageOf v memMap (usedEnd b) ∧
        ((r.1 + r.2 : ℕ) : ℤ) = pageOf v memMap (usedStart c) := by
  have hpages : 0 ≤ pageOf v memMap (usedEnd b) := by
    have := (h.low b (List.mem_append_right _ List.mem_cons_self)).trans (place_mono _ _ (used_le b))
    rw [pageOf]
    omega
  obtain ⟨x, hx⟩ := Int.eq_ofNat_of_zero_le hpages
  obtain ⟨y, hy⟩ := Int.eq_ofNat_of_zero_le (hpages.trans hgap.2.2.le)
  have hlt := hgap.2.2
  have hsum : ((x + (y - x) : ℕ) : ℤ) = pageOf v memMap (usedStart c) := by omega
  exact ⟨(x, y - x), (mem_freeUnusedMemmap h).mpr ⟨before, b, c, after, rfl, hgap, hx.symm, hsum⟩,
    hx.symm, hsum⟩

/-- Where nothing in use is given back, the descriptors in front of a gap end by its page. -/
theorem Trimmed.endBy {after : List Membank} (h : Placed v memMap (before ++ b :: c :: after))
    (htrim : Trimmed v memMap (before ++ b :: c :: after)
      (freeUnusedMemmap v memMap (before ++ b :: c :: after))) (hgap : Gap v memMap b c) :
    EndBy v memMap (before ++ [b]) (pageOf v memMap (usedEnd b)) := by
  have hpos : (0 : ℤ) < v.sizeofPage := Int.ofNat_lt.mpr v.positive
  obtain ⟨r, hr, hfirst, hlast⟩ := hgap.freed h
  rw [← hfirst]
  refine ⟨?_, fun d hd hused => ?_⟩
  · obtain ⟨⟨d, hd, hbegun⟩, -⟩ := htrim.inside r hr
    rcases h.around hd with ⟨hin, -⟩ | ⟨-, hbehind⟩
    · exact ⟨d, hin, hbegun⟩
    · have hblock := Nat.mul_le_mul_right maxOrderNrPages
        (Nat.div_le_div_right (c := maxOrderNrPages) hbehind)
      exact ⟨b, List.mem_append_right _ List.mem_cons_self, (place_mono _ _ hblock).trans hbegun⟩
  · obtain ⟨hall, hle⟩ := h.front hd
    have hnext := place_succ v memMap (usedEnd d - 1)
    rw [Nat.sub_add_cancel (Nat.zero_lt_of_lt hused)] at hnext
    rcases htrim.unused r hr d hall (usedEnd d - 1) (by omega) (by omega) with hout | hout
    · omega
    · have hmono := place_mono v memMap hle
      have hpage := (pageOf_le v memMap (usedEnd b)).2
      have hwhole : pageOf v memMap (usedEnd b) + 4096 ≤ pageOf v memMap (usedStart c) := by
        have hlt := hgap.2.2
        rw [pageOf, pageOf] at hlt ⊢
        omega
      omega

/-- The map keeps its descriptors in use exactly when those in front of every gap end by the page
that the gap is given back from. -/
theorem freeUnusedMemmap_iff (v : MapBank) (memMap : ℕ) (banks : List Membank)
    (h : Placed v memMap banks) :
    Trimmed v memMap banks (freeUnusedMemmap v memMap banks) ↔
      ∀ before b c after, banks = before ++ b :: c :: after → Gap v memMap b c →
        EndBy v memMap (before ++ [b]) (pageOf v memMap (usedEnd b)) := by
  constructor
  · rintro htrim before b c after rfl hgap
    exact htrim.endBy h hgap
  · intro hends
    have hgaps := fun r : ℕ × ℕ => (mem_freeUnusedMemmap h (r := r)).mp
    refine ⟨fun r hr => ?_, fun r hr => ?_, fun r hr d hd pfn hlow hhigh => ?_,
      pairwise_freeUnusedMemmap h⟩
    · obtain ⟨before, b, c, after, -, -, hfirst, hlast⟩ := hgaps r hr
      rw [pageOf] at hfirst hlast
      omega
    · obtain ⟨before, b, c, after, rfl, hgap, hfirst, hlast⟩ := hgaps r hr
      obtain ⟨⟨d, hd, hbegun⟩, -⟩ := hends before b c after rfl hgap
      have hc : c ∈ before ++ b :: c :: after :=
        List.mem_append_right _ (List.mem_cons_of_mem _ List.mem_cons_self)
      refine ⟨⟨d, (h.front hd).1, hfirst ▸ hbegun⟩, c, hc, ?_⟩
      rw [hlast]
      exact (pageOf_le v memMap _).1.trans (place_mono _ _ (used_le c))
    · obtain ⟨before, b, c, after, rfl, hgap, hfirst, hlast⟩ := hgaps r hr
      obtain ⟨-, hend⟩ := hends before b c after rfl hgap
      rcases h.around hd with ⟨hin, -⟩ | ⟨hbehind, -⟩
      · left
        rw [← place_succ, hfirst]
        exact (place_mono _ _ (Nat.succ_le_of_lt hhigh)).trans (hend d hin (hlow.trans_lt hhigh))
      · right
        rw [hlast]
        exact (pageOf_le v memMap _).1.trans (place_mono _ _ (hbehind.trans hlow))

/-- For a bank with frames the page has to begin where its descriptors end. -/
theorem EndBy.dvd (hb : usedStart b < usedEnd b)
    (h : EndBy v memMap (before ++ [b]) (pageOf v memMap (usedEnd b))) :
    4096 ∣ place v memMap (usedEnd b) := by
  have hle := h.2 b (List.mem_append_right _ List.mem_cons_self) hb
  rw [pageOf] at hle
  omega

/-- Two banks of 4 MiB, 12 MiB apart. -/
def twoBanks : List Membank := [⟨0x50000000, 0x400000, false⟩, ⟨0x51000000, 0x400000, false⟩]

/-- A map on a page boundary keeps its descriptors. -/
theorem freeUnusedMemmap_iff_aligned :
    Trimmed plainBank 0x50100000 twoBanks (freeUnusedMemmap plainBank 0x50100000 twoBanks) := by
  refine (freeUnusedMemmap_iff plainBank 0x50100000 twoBanks
    ⟨by decide +kernel, by decide +kernel, by decide +kernel, by decide +kernel⟩).mpr ?_
  intro before b c after hbanks _
  cases before with
  | nil =>
    obtain ⟨rfl, -⟩ := List.cons.inj hbanks
    refine ⟨⟨_, List.mem_singleton_self _, by decide +kernel⟩, fun a ha _ => ?_⟩
    rw [List.nil_append, List.mem_singleton] at ha
    subst ha
    decide +kernel
  | cons first before =>
    have hlength := congrArg List.length hbanks
    simp only [twoBanks, List.length_cons, List.length_append, List.length_nil] at hlength
    omega

/-- A map 32 bytes behind a page boundary loses half of the last descriptor of the first bank. -/
theorem freeUnusedMemmap_counterexample :
    Placed plainBank 0x50100020 twoBanks ∧
      freeUnusedMemmap plainBank 0x50100020 twoBanks = [(0x50110000, 0x30000)] ∧
      place plainBank 0x50100020 0x503FF = 0x5010FFE0 ∧
      ¬Trimmed plainBank 0x50100020 twoBanks (freeUnusedMemmap plainBank 0x50100020 twoBanks) := by
  have hplaced : Placed plainBank 0x50100020 twoBanks :=
    ⟨by decide +kernel, by decide +kernel, by decide +kernel, by decide +kernel⟩
  refine ⟨hplaced, by decide +kernel, by decide +kernel, fun htrim => ?_⟩
  have hgap : Gap plainBank 0x50100020 ⟨0x50000000, 0x400000, false⟩ ⟨0x51000000, 0x400000, false⟩ :=
    ⟨by decide +kernel, by decide +kernel, by decide +kernel⟩
  have hsplit : Placed plainBank 0x50100020 ([] ++ (⟨0x50000000, 0x400000, false⟩ : Membank) ::
      ⟨0x51000000, 0x400000, false⟩ :: []) := hplaced
  have hends := Trimmed.endBy hsplit htrim hgap
  have hdvd := hends.dvd (by decide +kernel)
  exact absurd hdvd (by decide +kernel)

end BiscuitOS.MemmapTrim
