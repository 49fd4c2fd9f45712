import BiscuitOS.MemblockHistory
import BiscuitOS.MemblockRollback
import BiscuitOS.MemblockSearch

/-!
# Allocations from the early allocator

Sequences of `__memblock_alloc_base` on arbitrary well-formed tables. A step
is safe when storing the block it finds meets neither the stale entries of an
emptied table, nor the wrong undoing of a failed doubling, nor the freeing of
an array that was handed out again.
-/

namespace BiscuitOS.MemblockAllocation

open MachineWord TransitionRun MemblockModel MemblockTable MemblockUpdate MemblockHistory
  MemblockRollback MemblockSearch

/-- The arguments of `__memblock_alloc_base`. -/
structure Request where
  /-- Number of bytes asked for. -/
  size : ℕ
  /-- Alignment, a power of two. -/
  align : ℕ
  /-- Upper end of the block; zero for the current limit. -/
  max : ℕ

/-- The number of bytes reserved for a request. -/
def Request.rounded (r : Request) : ℕ := memblockAlignUp r.size r.align

/-- Nonzero size, power-of-two alignment and no overflow in the rounding. -/
def Request.Legal (r : Request) : Prop :=
  0 < r.size ∧ (∃ k < 32, r.align = 2 ^ k) ∧ r.size + r.align ≤ 2 ^ 32

/-- A reserved table that is sorted and disjoint, with a capacity that `memblock_init` or a
doubling gives and an array that does not wrap. -/
structure Usable (t : MemblockType) : Prop where
  spaced : Spaced 0 t
  capacity : initMemblockRegions ≤ t.max
  array_fits : ∀ a, t.array = some a → a + t.max * sizeofRegion < 2 ^ 32

/-- Both tables are sorted, disjoint and do not wrap. -/
def WellFormed (m : Memblock) : Prop := Spaced 0 m.memory ∧ Usable m.reserved

/-- The bytes of a block. -/
def span (g : ℕ × ℕ) : Set ℕ := Set.Ico g.1 (g.1 + g.2)

/-- The table reserves every block handed out. -/
def Holds (t : MemblockType) (live : List (ℕ × ℕ)) : Prop := ∀ g ∈ live, span g ⊆ bytes t

/-- The bytes of the array behind a table. -/
def arrayBytes (t : MemblockType) : ℕ := t.max * sizeofRegion

/-- Doubling the reserved table harms no block: the size of the new array is representable,
what `kmalloc` answers is not reserved, and the old array was not handed out. -/
def DoublingSafe (m : Memblock) (live : List (ℕ × ℕ)) : Prop :=
  2 * arrayBytes m.reserved < 2 ^ 32 ∧
  (m.slabAvailable = true → ∀ addr, m.kmalloc = some addr →
    addr + 2 * arrayBytes m.reserved < 2 ^ 32 ∧
      Clear m.reserved addr (2 * arrayBytes m.reserved)) ∧
  ∀ old, m.reserved.array = some old → ∀ g ∈ live,
    Disjoint (span g) (Set.Ico old (old + arrayBytes m.reserved))

/-- The state after the block took the last free entry of the reserved table. -/
def filled (m : Memblock) (base size : ℕ) : Memblock :=
  m.setTable .reserved (insertRegion m.reserved base size)

/-- Storing the block meets no stale entry, and if it needs the last free entry, then either a
failing doubling finds the block behind every entry, or the doubling harms no block. -/
def InsertionSafe (m : Memblock) (live : List (ℕ × ℕ)) (base size : ℕ) : Prop :=
  Refillable m.reserved base size ∧
  (¬ IsDummy m.reserved → (∀ k < m.reserved.cnt, Untouched m.reserved base size k) →
    m.reserved.cnt + 1 = m.reserved.max →
    (DoublingFails .reserved (filled m base size) →
      (m.reserved.regions (m.reserved.cnt - 1)).base ≤ base) ∧
    (¬ DoublingFails .reserved (filled m base size) →
      DoublingSafe (filled m base size) ((base, size) :: live)))

variable {m : Memblock} {t : MemblockType} {live : List (ℕ × ℕ)} {base size depth : ℕ}

/-- Blocks stay reserved when the table only gains bytes. -/
theorem Holds.mono {t' : MemblockType} (h : Holds t live) (hsub : bytes t ⊆ bytes t') :
    Holds t' live := fun g hg => (h g hg).trans hsub

/-- Replacing the table in place keeps it usable. -/
theorem Usable.becomes {t' : MemblockType} {covered : Set ℕ} (h : Usable t)
    (hb : Becomes 0 t t' covered) : Usable t' where
  spaced := hb.spaced
  capacity := by
    rw [hb.max_eq]
    exact h.capacity
  array_fits a ha := by
    rw [hb.max_eq]
    exact h.array_fits a (hb.array_eq ▸ ha)

/-- Moving the table to an array of twice the size. -/
theorem doubledTable_usable (h : Usable t) (hsize : 2 * arrayBytes t < 2 ^ 32) {addr : ℕ}
    (haddr : addr + 2 * arrayBytes t < 2 ^ 32) :
    Usable (doubledTable t addr) ∧ bytes (doubledTable t addr) = bytes t ∧
      (doubledTable t addr).max = 2 * t.max := by
  have hcap : 128 ≤ t.max := h.capacity
  rw [arrayBytes, sizeofRegion] at hsize haddr
  have hmax : wrap 64 (t.max * 2) = 2 * t.max := by
    rw [wrap_of_lt (by omega), Nat.mul_comm]
  have hcnt := h.spaced.cnt_le
  have hsame : ∀ i < t.cnt, (doubledTable t addr).regions i = t.regions i := fun i hi => by
    dsimp only [doubledTable]
    rw [if_pos (by omega)]
  have hc : (doubledTable t addr).cnt = t.cnt := rfl
  have hm : (doubledTable t addr).max = 2 * t.max := hmax
  have hr : (doubledTable t addr).room = t.max * 2 := rfl
  obtain ⟨hs, hb⟩ := h.spaced.of_entries hc (by omega) (by omega) (by omega) hsame
  refine ⟨⟨hs, ?_, fun a ha => ?_⟩, hb, hm⟩
  · rw [hm, initMemblockRegions]
    omega
  · cases ha
    rw [hm, sizeofRegion]
    omega

/-- When doubling does not fail, it finds room for the new array. -/
theorem newArrayAddr_found (hwf : WellFormed m) (hnf : ¬ DoublingFails .reserved m)
    (hsafe : DoublingSafe m live) :
    m.canResize = true ∧ ∃ addr, newArrayAddr .reserved m = some addr ∧ addr ≠ memblockError ∧
      addr + 2 * arrayBytes m.reserved < 2 ^ 32 ∧
      (m.slabAvailable = true → Clear m.reserved addr (2 * arrayBytes m.reserved)) := by
  obtain ⟨hsize, hkmalloc, -⟩ := hsafe
  have hcap : 128 ≤ m.reserved.max := hwf.2.capacity
  have hresize : m.canResize = true := by
    by_contra hc
    exact hnf (Or.inl (Bool.eq_false_of_not_eq_true hc))
  have hne : newArrayAddr .reserved m ≠ some memblockError := fun he => hnf (Or.inr he)
  refine ⟨hresize, ?_⟩
  unfold newArrayAddr at hne ⊢
  by_cases hslab : m.slabAvailable = true
  · rw [if_pos hslab] at hne ⊢
    cases hk : m.kmalloc with
    | none =>
      rw [hk] at hne
      exact absurd rfl hne
    | some addr =>
      rw [hk, Option.getD_some] at hne
      obtain ⟨hlast, hclear⟩ := hkmalloc hslab addr hk
      exact ⟨addr, rfl, fun he => hne (by rw [he]), hlast, fun _ => hclear⟩
  · have hnew : wrap 32 (wrap 32 ((m.table .reserved).max * sizeofRegion) * 2) =
        2 * arrayBytes m.reserved := by
      have ht : (m.table .reserved).max * sizeofRegion = arrayBytes m.reserved := rfl
      rw [ht, wrap_of_lt (show arrayBytes m.reserved < 2 ^ 32 by omega), Nat.mul_comm,
        wrap_of_lt hsize]
    rw [if_neg hslab, hnew] at hne ⊢
    have hpos : 0 < 2 * arrayBytes m.reserved := by
      rw [arrayBytes, sizeofRegion]
      omega
    obtain ⟨addr, haddr, hcases⟩ := findBase_isGreatest hwf.1 hwf.2.spaced hpos
      (show 2 < 32 by decide) 0
    change memblockFindBase m (2 * arrayBytes m.reserved) 4 0 0 = some addr at haddr
    rw [haddr] at hne ⊢
    rcases hcases with ⟨hz, -⟩ | ⟨hnz, ⟨i, hi, hin⟩, -⟩
    · exact absurd (by rw [hz]; rfl) hne
    · refine ⟨addr, rfl, hnz, ?_, fun hs => absurd hs hslab⟩
      have h1 := hin.2.1
      have h2 := hwf.1.fits i hi
      omega

/-- Freeing the old array keeps every block that does not lie in it. -/
theorem free_array (h : Usable t) (ht : m.table .reserved = t) {old len : ℕ} (hlen : 0 < len)
    (hlast : old + len < 2 ^ 32) (hroom : t.cnt + 1 < t.max) (hholds : Holds t live)
    (hout : ∀ g ∈ live, Disjoint (span g) (Set.Ico old (old + len)))
    {d : TableId → Memblock → Option (ℤ × Memblock)} :
    ∃ ret t', memblockRemoveWith (memblockAddRegionWith d) .reserved old len m =
        some (ret, m.setTable .reserved t') ∧ Usable t' ∧ Holds t' live := by
  by_cases hin : ∃ i, i < t.cnt ∧ Within t old len i
  · obtain ⟨i, hi, hin⟩ := hin
    obtain ⟨ret, t', -, he, hb⟩ := remove_within (d := d) ht h.spaced (Nat.zero_le 1) hlen hi hin
      (fun _ _ => hroom)
    refine ⟨ret, t', he, h.becomes hb, fun g hg a ha => ?_⟩
    rw [hb.bytes_eq]
    exact ⟨hholds g hg ha, Set.disjoint_left.mp (hout g hg) ha⟩
  · push Not at hin
    refine ⟨-1, t, ?_, h, hholds⟩
    rw [remove_outside (by rw [ht]; exact h.spaced.fits) hlast (by rw [ht]; exact hin), ← ht,
      Memblock.setTable_table]

/-- A doubling of the full reserved table that harms no block. -/
theorem doubleArray_safe (depth : ℕ) (hwf : WellFormed m) (hfull : m.reserved.cnt = m.reserved.max)
    (hnf : ¬ DoublingFails .reserved m) (hsafe : DoublingSafe m live)
    (hholds : Holds m.reserved live) :
    ∃ t', memblockDoubleArray (depth + 1) .reserved m = some (0, m.setTable .reserved t') ∧
      Usable t' ∧ Holds t' live := by
  obtain ⟨hresize, addr, hfound, hne, hlast, hclear⟩ := newArrayAddr_found hwf hnf hsafe
  obtain ⟨hsize, -, hold⟩ := hsafe
  have hcap : 128 ≤ m.reserved.max := hwf.2.capacity
  obtain ⟨hu, hbytes, hmax⟩ := doubledTable_usable hwf.2 hsize hlast
  have htbl : m.table .reserved = m.reserved := rfl
  have hlen : wrap 32 (m.reserved.max * sizeofRegion) = arrayBytes m.reserved := by
    change wrap 32 (arrayBytes m.reserved) = _
    exact wrap_of_lt (by omega)
  have hnew : wrap 32 (arrayBytes m.reserved * 2) = 2 * arrayBytes m.reserved := by
    rw [Nat.mul_comm, wrap_of_lt hsize]
  set t1 := doubledTable m.reserved addr with ht1
  set m1 := m.setTable .reserved t1 with hm1
  have hm1t : m1.table .reserved = t1 := rfl
  have hcnt : t1.cnt = m.reserved.max := hfull
  have hres : ∃ t2, (if m1.slabAvailable then
      (memblockAddRegionWith (memblockDoubleArray depth) .reserved addr
        (2 * arrayBytes m.reserved) m1).map Prod.snd else some m1) =
        some (m.setTable .reserved t2) ∧
      Usable t2 ∧ Holds t2 live ∧ t2.cnt + 1 < t2.max := by
    by_cases hslab : m1.slabAvailable = true
    · have hcl : Clear t1 addr (2 * arrayBytes m.reserved) := fun i hi => by
        have hc := hclear hslab i hi
        rw [ht1]
        dsimp only [doubledTable]
        rwa [if_pos (by omega)]
      obtain ⟨ret, t2, -, he, hb⟩ := addRegion_clear (d := memblockDoubleArray depth) hm1t hu.spaced
        (Nat.zero_le 1) (by omega) (fun hd => by have := hd.1; omega)
        (by rw [arrayBytes, sizeofRegion]; omega) hlast hcl (fun _ => by omega)
      refine ⟨t2, ?_, hu.becomes hb, ?_, ?_⟩
      · rw [if_pos hslab, he, hm1, Memblock.setTable_setTable]
        rfl
      · refine hholds.mono ?_
        rw [hb.bytes_eq, hbytes]
        exact Set.subset_union_left
      · have h1 := hb.cnt_le
        rw [hb.max_eq]
        omega
    · refine ⟨t1, by rw [if_neg hslab, hm1], hu, ?_, by omega⟩
      refine hholds.mono ?_
      rw [hbytes]
  obtain ⟨t2, he2, hu2, hh2, hroom2⟩ := hres
  rw [memblockDoubleArray, memblockDoubleArrayWith,
    if_neg (show ¬ m.canResize = false by rw [hresize]; decide), hfound]
  dsimp only
  rw [Option.bind_some, if_neg hne, htbl, hlen, hnew, he2, Option.bind_some]
  cases harr : m.reserved.array with
  | none => exact ⟨t2, rfl, hu2, hh2⟩
  | some old =>
    have hoff := hwf.2.array_fits old harr
    obtain ⟨ret, t3, he3, hu3, hh3⟩ := free_array (d := memblockDoubleArray depth)
      (m := m.setTable .reserved t2) hu2 (Memblock.table_setTable _ _ _)
      (show 0 < arrayBytes m.reserved by rw [arrayBytes, sizeofRegion]; omega) hoff hroom2 hh2
      (hold old harr)
    refine ⟨t3, ?_, hu3, hh3⟩
    dsimp only
    rw [he3, Option.map_some, Memblock.setTable_setTable]

/-- A failed doubling that found the new block behind every entry is undone completely. -/
theorem undone_usable (size : ℕ) (h : Usable t) (hc : 0 < t.cnt)
    (hbehind : (t.regions (t.cnt - 1)).base ≤ base) :
    Usable (undone t base size) ∧ bytes (undone t base size) = bytes t := by
  obtain ⟨p, hp, -, habove, he⟩ := insertRegion_eq h.spaced hc base size
  have hpc : p = t.cnt := by
    by_contra hne
    have := habove (t.cnt - 1) (by omega) (by omega)
    omega
  have hsame : ∀ i < t.cnt, (undone t base size).regions i = t.regions i := fun i hi => by
    rw [undone, he]
    dsimp only
    rw [if_pos (by omega)]
  have hentries : Spaced 0 (undone t base size) ∧ bytes (undone t base size) = bytes t :=
    h.spaced.of_entries rfl h.spaced.cnt_le h.spaced.max_le h.spaced.room_lt hsame
  exact ⟨⟨hentries.1, h.capacity, h.array_fits⟩, hentries.2⟩

/-- Storing a clear block safely reserves it or reports an error, and keeps every block. -/
theorem insertion_safe (depth : ℕ) (hwf : WellFormed m) (hsize : 0 < size)
    (hlast : base + size < 2 ^ 32)
    (hclear : Clear m.reserved base size) (hsafe : InsertionSafe m live base size)
    (hholds : Holds m.reserved live) :
    ∃ ret t', memblockAddRegion (depth + 1) .reserved base size m =
        some (ret, m.setTable .reserved t') ∧ Usable t' ∧
      (0 ≤ ret ∧ Holds t' ((base, size) :: live) ∨ ret < 0 ∧ Holds t' live) := by
  obtain ⟨hrefill, hdouble⟩ := hsafe
  have hcap : 128 ≤ m.reserved.max := hwf.2.capacity
  have htbl : m.table .reserved = m.reserved := rfl
  have htbl_spaced : Spaced 0 (m.table .reserved) := hwf.2.spaced
  have hadded : ∀ t', Becomes 0 m.reserved t' (bytes m.reserved ∪ Set.Ico base (base + size)) →
      Usable t' ∧ Holds t' ((base, size) :: live) := fun t' hb => by
    refine ⟨hwf.2.becomes hb, fun g hg => ?_⟩
    rw [hb.bytes_eq]
    rcases List.mem_cons.mp hg with rfl | hg
    · exact Set.subset_union_right
    · exact (hholds g hg).trans Set.subset_union_left
  rw [memblockAddRegion]
  by_cases hc : m.reserved.cnt = 0
  · obtain ⟨hadj, hor⟩ := hrefill.resolve_left (fun hne => hne hc)
    have hb := refilled_becomes hwf.2.spaced (by omega) hor hlast
    rw [← Set.empty_union (Set.Ico base (base + size)), ← bytes_emptied hc] at hb
    exact ⟨0, _, addRegion_emptied htbl hc (by omega) hadj, (hadded _ hb).1,
      Or.inl ⟨le_refl 0, (hadded _ hb).2⟩⟩
  · by_cases hd : IsDummy m.reserved
    · have hb := setRegion_dummy hwf.2.spaced hd base size 0 hlast
      rw [← Set.empty_union (Set.Ico base (base + size)), ← bytes_dummy hd] at hb
      exact ⟨0, _, addRegion_dummy hd, (hadded _ hb).1, Or.inl ⟨le_refl 0, (hadded _ hb).2⟩⟩
    · by_cases hroom : (∀ k < m.reserved.cnt, Untouched m.reserved base size k) →
          m.reserved.cnt + 1 < m.reserved.max
      · obtain ⟨ret, t', hpos, he, hb⟩ := addRegion_clear (d := memblockDoubleArray (depth + 1)) htbl
          hwf.2.spaced (Nat.zero_le 1) (by omega) hd hsize hlast hclear hroom
        exact ⟨ret, t', he, (hadded _ hb).1, Or.inl ⟨hpos, (hadded _ hb).2⟩⟩
      · push Not at hroom
        obtain ⟨hall, hfull⟩ := hroom
        have hadd := addRegion_untouched (d := memblockDoubleArray (depth + 1)) htbl hwf.2.spaced
          (by omega) hd hlast hall
        by_cases hover : m.reserved.max ≤ m.reserved.cnt
        · rw [if_pos hover] at hadd
          exact ⟨-1, m.reserved, hadd, hwf.2, Or.inr ⟨by decide, hholds⟩⟩
        · have hlastEntry : m.reserved.cnt + 1 = m.reserved.max := by omega
          obtain ⟨hfails, hworks⟩ := hdouble hd hall hlastEntry
          rw [if_neg hover, if_pos hlastEntry] at hadd
          by_cases hdf : DoublingFails .reserved (filled m base size)
          · obtain ⟨hu, hb⟩ := undone_usable size hwf.2 (by omega) (hfails hdf)
            have he := (add_fails_iff depth _ base size htbl_spaced hc hlast).mpr
              ⟨hd, hall, Or.inr ⟨hlastEntry, hdf, rfl⟩⟩
            refine ⟨-1, _, he, hu, Or.inr ⟨by decide, hholds.mono ?_⟩⟩
            change bytes m.reserved ⊆ bytes (undone m.reserved base size)
            rw [hb]
          · have hb := insertRegion_becomes hwf.2.spaced (Nat.zero_le 1) (by omega) hd (by omega)
              hsize hlast hclear hall
            obtain ⟨hu, hh⟩ := hadded _ hb
            have hcnt : (filled m base size).reserved.cnt = (filled m base size).reserved.max := by
              have hw : (insertRegion m.reserved base size).cnt = m.reserved.cnt + 1 := by
                have h1 := hwf.2.spaced.max_le
                have h2 := hwf.2.spaced.room_lt
                exact wrap_of_lt (by omega)
              change (insertRegion m.reserved base size).cnt = m.reserved.max
              omega
            obtain ⟨t', he, hu', hh'⟩ := doubleArray_safe depth (m := filled m base size)
              ⟨hwf.1, hu⟩ hcnt hdf (hworks hdf) hh
            refine ⟨0, t', ?_, hu', Or.inl ⟨le_refl 0, hh'⟩⟩
            rw [hadd]
            change (memblockDoubleArray (depth + 1) .reserved (filled m base size)).map _ = _
            rw [he]
            rfl

/-- Perform a request and record the block it hands out. -/
def allocStep (depth : ℕ) (s : Memblock × List (ℕ × ℕ)) (r : Request) :
    Option (Memblock × List (ℕ × ℕ)) :=
  (memblockAllocBase (depth + 1) r.size r.align r.max s.1).map fun (p, m') =>
    (m', if p = 0 then s.2 else (p, r.rounded) :: s.2)

/-- The highest block that fits, if there is one, can be stored safely. -/
def KeepsGrants (s : Memblock × List (ℕ × ℕ)) (r : Request) : Prop :=
  ∀ p, IsGreatest {q | Fits s.1 r.rounded r.align r.max q} p →
    InsertionSafe s.1 s.2 p r.rounded

/-- What a nonzero answer promises. -/
structure Granted (m m' : Memblock) (r : Request) (p : ℕ) : Prop where
  nonzero : p ≠ 0
  aligned : r.align ∣ p
  inMemory : ∃ i < m.memory.cnt, (m.memory.regions i).base ≤ p ∧
    p + r.rounded ≤ Region.last (m.memory.regions i)
  below : p + r.rounded ≤ searchLimit m r.max
  free : Disjoint (bytes m.reserved) (span (p, r.rounded))
  reserved : span (p, r.rounded) ⊆ bytes m'.reserved

/-- The blocks of a list share no byte. -/
def Apart (live : List (ℕ × ℕ)) : Prop := live.Pairwise fun g h => Disjoint (span g) (span h)

/-- Well-formed tables that reserve all blocks handed out, which are disjoint. -/
def Sound (s : Memblock × List (ℕ × ℕ)) : Prop :=
  WellFormed s.1 ∧ Holds s.1.reserved s.2 ∧ Apart s.2

/-- Rounding a legal size neither shrinks it nor overflows. -/
theorem rounded_spec {r : Request} (h : r.Legal) : r.size ≤ r.rounded ∧ r.align ∣ r.rounded := by
  obtain ⟨-, ⟨k, hk, hal⟩, hover⟩ := h
  obtain ⟨h1, -, h3⟩ := alignUp_spec (x := r.size) hk (by rwa [← hal])
  rw [Request.rounded, memblockAlignUp, hal]
  exact ⟨h1, h3⟩

/-- A fitting block lies in one memory entry below the limit and meets no reservation. -/
theorem Fits.granted {r : Request} {p : ℕ}
    (h : Fits m r.rounded r.align r.max p) {m' : Memblock}
    (hres : span (p, r.rounded) ⊆ bytes m'.reserved) : Granted m m' r p := by
  obtain ⟨i, hi, hlo, hhi, hal, hclear⟩ := h
  have hge := le_firstAddr (m.memory.regions i).base
  have hpos := firstAddr_pos (m.memory.regions i).base
  refine ⟨by omega, hal, ⟨i, hi, by omega, by omega⟩, by omega, ?_, hres⟩
  rw [Set.disjoint_left]
  rintro a ⟨j, hj, ha⟩ hs
  rw [span, Set.mem_Ico] at hs
  dsimp only at hs
  rcases hclear j hj with hc | hc <;> omega

/-- A safe request terminates, answers zero or a block with all promises, and stays sound. -/
theorem alloc_step (depth : ℕ) {r : Request} (hs : Sound (m, live)) (hlegal : r.Legal)
    (hkeep : KeepsGrants (m, live) r) :
    ∃ p m', memblockAllocBase (depth + 1) r.size r.align r.max m = some (p, m') ∧
      (p = 0 ∨ Granted m m' r p) ∧
      Sound (m', if p = 0 then live else (p, r.rounded) :: live) := by
  obtain ⟨hwf, hholds, hapart⟩ := hs
  obtain ⟨hsize, hrd⟩ := rounded_spec hlegal
  obtain ⟨hpos, ⟨k, hk, hal⟩, -⟩ := hlegal
  obtain ⟨found, hfound, hcases⟩ := findBase_isGreatest hwf.1 hwf.2.spaced
    (show 0 < r.rounded by omega) hk r.max
  rw [← hal] at hfound hcases
  have hbase : memblockAllocBase (depth + 1) r.size r.align r.max m =
      if found ≠ memblockError then
        (memblockAddRegion (depth + 1) .reserved found r.rounded m).map fun x =>
          if 0 ≤ x.1 then (found, x.2) else (0, x.2)
      else some (0, m) := by
    rw [memblockAllocBase]
    change (memblockFindBase m r.rounded r.align 0 r.max).bind _ = _
    rw [hfound]
    rfl
  rcases hcases with ⟨hz, -⟩ | ⟨hnz, hgreat⟩
  · rw [if_neg (show ¬ found ≠ memblockError from not_not.mpr hz)] at hbase
    exact ⟨0, m, hbase, Or.inl rfl, hwf, hholds, hapart⟩
  · rw [if_pos (show found ≠ memblockError from hnz)] at hbase
    have hfits := hgreat.1
    obtain ⟨i, hi, -, hhi, -, hclear⟩ := hgreat.1
    have hlast : found + r.rounded < 2 ^ 32 := by
      have := hwf.1.fits i hi
      omega
    obtain ⟨ret, t', he, hu, hor⟩ := insertion_safe depth hwf (by omega) hlast hclear
      (hkeep found hgreat) hholds
    rw [he, Option.map_some] at hbase
    dsimp only at hbase
    rcases hor with ⟨hret, hh⟩ | ⟨hret, hh⟩
    · rw [if_pos hret] at hbase
      have hg : Granted m (m.setTable .reserved t') r found :=
        Fits.granted hfits (hh _ List.mem_cons_self)
      refine ⟨found, _, hbase, Or.inr hg, ⟨hwf.1, hu⟩, ?_⟩
      rw [if_neg hnz]
      refine ⟨hh, List.pairwise_cons.mpr ⟨fun g hgl => ?_, hapart⟩⟩
      exact (hg.free.symm.mono_right (hholds g hgl))
    · rw [if_neg (by omega)] at hbase
      exact ⟨0, _, hbase, Or.inl rfl, ⟨hwf.1, hu⟩, hh, hapart⟩

/-- Over every sequence of safe requests from arbitrary well-formed tables, each request
terminates with zero or a block that keeps every promise, and all blocks are disjoint. -/
theorem allocations_apart (depth : ℕ) (m₀ : Memblock) (hwf : WellFormed m₀) (reqs : List Request)
    (hrun : Admissible (allocStep depth) (fun s r => r.Legal ∧ KeepsGrants s r) (m₀, []) reqs) :
    (∃ m live, exec (allocStep depth) (m₀, []) reqs = some (m, live) ∧ Apart live) ∧
    ∀ done r rest, reqs = done ++ r :: rest → ∃ m live p m',
      exec (allocStep depth) (m₀, []) done = some (m, live) ∧
      memblockAllocBase (depth + 1) r.size r.align r.max m = some (p, m') ∧
      (p = 0 ∨ Granted m m' r p) := by
  have hstep : ∀ s r, Sound s → (r.Legal ∧ KeepsGrants s r) →
      ∃ s', allocStep depth s r = some s' ∧ Sound s' := fun s r hs hok => by
    obtain ⟨p, m', he, -, hs'⟩ := alloc_step depth hs hok.1 hok.2
    exact ⟨_, by rw [allocStep, he]; rfl, hs'⟩
  have hinit : Sound (m₀, []) := ⟨hwf, fun g hg => absurd hg List.not_mem_nil, List.Pairwise.nil⟩
  refine ⟨?_, fun done r rest hreqs => ?_⟩
  · obtain ⟨⟨m, live⟩, he, -, -, ha⟩ := exec_total hstep hinit hrun
    exact ⟨m, live, he, ha⟩
  · rw [hreqs] at hrun
    obtain ⟨⟨m, live⟩, he, hs⟩ := exec_total hstep hinit hrun.prefix
    obtain ⟨hok, -⟩ := hrun.suffix he
    obtain ⟨p, m', hp, hor, -⟩ := alloc_step depth hs hok.1 hok.2
    exact ⟨m, live, p, m', he, hp, hor⟩

/-- The initial tables with one memory entry of four megabytes above the first. -/
def bootMemory : Memblock :=
  { memblockInit with memory := staticTable.setRegion 0 ⟨1048576, 4194304⟩ }

/-- The tables after boot memory was added are well formed. -/
theorem bootMemory_wellFormed : WellFormed bootMemory := by
  obtain ⟨hs, -⟩ := memblockInit_table .memory
  have hd : IsDummy staticTable := ⟨rfl, by decide⟩
  refine ⟨(setRegion_dummy hs hd 1048576 4194304 0 (by decide)).spaced,
    (memblockInit_table .reserved).1.mono (Nat.zero_le 1), by decide, fun a ha => ?_⟩
  cases ha

/-- The first two pages allocated after boot lie side by side. -/
theorem allocations_apart_two : ∃ m, exec (allocStep 0) (bootMemory, [])
      [⟨4096, 4096, 0⟩, ⟨4096, 4096, 0⟩] = some (m, [(5234688, 4096), (5238784, 4096)]) ∧
    Apart [(5234688, 4096), (5238784, 4096)] := by
  have hlegal : (⟨4096, 4096, 0⟩ : Request).Legal := ⟨by decide, ⟨12, by decide, rfl⟩, by decide⟩
  have hafter : (allocStep 0 (bootMemory, []) ⟨4096, 4096, 0⟩).map
      (fun s => (s.1.reserved.cnt, s.1.reserved.max)) = some (1, 128) := by decide
  have hlive : (exec (allocStep 0) (bootMemory, [])
      [⟨4096, 4096, 0⟩, ⟨4096, 4096, 0⟩]).map Prod.snd =
      some [(5234688, 4096), (5238784, 4096)] := by decide
  obtain ⟨⟨m, live, hrun, hapart⟩, -⟩ := allocations_apart 0 bootMemory bootMemory_wellFormed
    [⟨4096, 4096, 0⟩, ⟨4096, 4096, 0⟩] (by
      refine ⟨⟨hlegal, fun p _ => ⟨Or.inl (by decide), fun hd => ?_⟩⟩, fun t ht =>
        ⟨⟨hlegal, fun p _ => ?_⟩, fun _ _ => trivial⟩⟩
      · exact absurd ⟨rfl, by decide⟩ hd
      · rw [ht, Option.map_some, Option.some_inj, Prod.mk.injEq] at hafter
        obtain ⟨hcnt, hmax⟩ := hafter
        refine ⟨Or.inl (by omega), fun _ _ hlast => ?_⟩
        omega)
  rw [hrun, Option.map_some, Option.some_inj] at hlive
  dsimp only at hlive
  subst hlive
  exact ⟨m, hrun, hapart⟩

/-- A reserved table whose only entry was freed: the entry is stale but still there. -/
def emptiedReserved : Memblock :=
  { bootMemory with reserved := { staticTable.setRegion 0 ⟨1048576, 4096⟩ with cnt := 0 } }

/-- From the emptied table two requests are answered with the same page. -/
theorem emptiedReserved_counterexample :
    WellFormed emptiedReserved ∧ (⟨4096, 4096, 0⟩ : Request).Legal ∧
      ∃ m live, exec (allocStep 0) (emptiedReserved, [])
          [⟨4096, 4096, 0⟩, ⟨4096, 4096, 0⟩] = some (m, live) ∧
        live = [(5238784, 4096), (5238784, 4096)] ∧ ¬ Apart live := by
  refine ⟨⟨bootMemory_wellFormed.1, ⟨by decide, by decide, by decide, fun i hi => ?_,
    fun i hi => ?_, fun i hi => ?_⟩, by decide, fun a ha => ?_⟩,
    ⟨by decide, ⟨12, by decide, rfl⟩, by decide⟩, ?_⟩
  · exact absurd hi (Nat.not_lt_zero i)
  · exact absurd hi (Nat.not_lt_zero i)
  · exact absurd hi (Nat.not_lt_zero (i + 1))
  · cases ha
  · have hv : (exec (allocStep 0) (emptiedReserved, [])
        [⟨4096, 4096, 0⟩, ⟨4096, 4096, 0⟩]).map Prod.snd =
        some [(5238784, 4096), (5238784, 4096)] := by decide
    rw [Option.map_eq_some_iff] at hv
    obtain ⟨⟨m, live⟩, he, hl⟩ := hv
    dsimp only at hl
    refine ⟨m, live, he, hl, fun ha => ?_⟩
    rw [hl, Apart, List.pairwise_cons] at ha
    have hd := ha.1 _ List.mem_cons_self
    rw [Set.disjoint_left] at hd
    have hin : 5238784 ∈ span (5238784, 4096) := by
      rw [span, Set.mem_Ico]
      omega
    exact hd hin hin

end BiscuitOS.MemblockAllocation
