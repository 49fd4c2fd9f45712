import BiscuitOS.TransitionRun
import BiscuitOS.KmapInvariant

/-!
# Kernel mappings over whole runs

A run maps and unmaps high-memory pages. `flush_all_zero_pkmaps` reads a
variable that is never assigned, so a run keeps the slots consistent where
each flushed slot happens to have its own entry removed.
-/

namespace BiscuitOS.KmapHistory

open MachineWord TransitionRun ListTable KmapModel KmapInvariant
open PageAddressModel (lastPkmap pageSlot PageAddressMap)

/-- The slots and the addresses of high-memory pages that were returned and not given back. -/
structure KmapWorld where
  /-- The state of `highmem.c`. -/
  highmem : Highmem
  /-- Pages and the addresses returned for them. -/
  out : List (ℕ × ℕ)

/-- What users of high memory do. -/
inductive KmapOp
  /-- `kmap`, where flushing slot `i` finds `stray i` in its unassigned variable. -/
  | kmap (page : ℕ) (stray : ℕ → ℕ)
  /-- `kunmap`. -/
  | kunmap (page : ℕ)

section Pages

variable (pageHighMem : ℕ → Option Bool) (lowmemPageAddress : ℕ → ℕ)

/-- Perform an operation. -/
def perform (w : KmapWorld) : KmapOp → Option KmapWorld
  | .kmap page stray =>
    (kmap pageHighMem lowmemPageAddress w.highmem page stray).map fun mapped =>
      ⟨mapped.2, if pageHighMem page = some true then (page, mapped.1) :: w.out else w.out⟩
  | .kunmap page =>
    (kunmap pageHighMem w.highmem page).map fun unmapped =>
      ⟨unmapped, if pageHighMem page = some true then w.out.eraseP fun x => x.1 = page else w.out⟩

/-- What callers promise: pages have descriptors, fewer than `LAST_PKMAP` distinct pages are in use
when one is mapped, a page has less than `INT_MAX` users, and only pages in use are unmapped. -/
def Legal (w : KmapWorld) : KmapOp → Prop
  | .kmap page _ => (pageHighMem page).isSome ∧ (w.out.map Prod.fst).toFinset.card < lastPkmap ∧
      users w.out page + 2 < 2 ^ 31
  | .kunmap page => (pageHighMem page).isSome ∧
      (pageHighMem page = some true → 0 < users w.out page)

/-- A kmap that wraps around the ring before it meets a usable slot flushes the right entries. -/
def FlushesRight (w : KmapWorld) : KmapOp → Prop
  | .kmap page stray => pageHighMem page = some true → pageAddress w.highmem page = 0 →
      (∀ i < lastPkmap, w.highmem.lastPkmapNr < i → w.highmem.pkmapCount i ≠ 0) →
      FlushHits pageHighMem { w.highmem with lastPkmapNr := 0 } stray 0 lastPkmap
  | .kunmap _ => True

end Pages

/-- The assignment of pages to slots in one state. -/
structure SlotsSound (w : KmapWorld) : Prop where
  /-- An address in use is the one of a slot whose pte refers to the page. -/
  address : ∀ x ∈ w.out, ∃ i < lastPkmap, x.2 = pkmapAddr i ∧ w.highmem.pkmapPage i = some x.1
  /-- A page in use has one address. -/
  same : ∀ x ∈ w.out, ∀ y ∈ w.out, x.1 = y.1 → x.2 = y.2
  /-- Pages in use do not share a slot. -/
  apart : ∀ x ∈ w.out, ∀ y ∈ w.out, x.1 ≠ y.1 → x.2 ≠ y.2
  /-- A count is zero, or one more than the users of the page of the slot. -/
  count : ∀ i < lastPkmap, w.highmem.pkmapCount i = 0 ∨ ∃ page,
    w.highmem.pkmapPage i = some page ∧ w.highmem.pkmapCount i = 1 + users w.out page

/-- What one operation may do to the slots. -/
structure SlotsKept (pageHighMem : ℕ → Option Bool) (w t : Highmem) : Prop where
  /-- A count falls to zero only from one, and the entry of the page of the slot is removed. -/
  cleared : ∀ i < lastPkmap, w.pkmapCount i ≠ 0 → t.pkmapCount i = 0 → w.pkmapCount i = 1 ∧
    (∃ page, w.pkmapPage i = some page ∧ Mapped w page (pkmapAddr i)) ∧
      ∀ page, ¬ Mapped t page (pkmapAddr i)
  /-- A slot is given to another page only if its count is zero, or is one and this operation
  flushes it, and then its previous page has no entry for it. -/
  reassigned : ∀ i < lastPkmap, ∀ page, w.pkmapPage i = some page → t.pkmapPage i ≠ some page →
    (w.pkmapCount i = 0 ∨ w.pkmapCount i = 1 ∧ ∃ stray flushed,
      flushAllZeroPkmaps pageHighMem { w with lastPkmapNr := 0 } stray = some flushed ∧
        flushed.pkmapCount i = 0) ∧
      ¬ Mapped t page (pkmapAddr i)

/-- The invariant gives the assignment of pages to slots. -/
theorem slotsSound_of_inv {w : KmapWorld} (h : PkmapInv w.highmem w.out) : SlotsSound w where
  address x hx := by
    obtain ⟨i, hi, ha, -, hp⟩ := h.owner _ _ (h.mapped x hx)
    exact ⟨i, hi, ha, hp⟩
  same x hx y hy he := h.unique (h.mapped x hx) (he ▸ h.mapped y hy)
  apart x hx y hy hne he := by
    obtain ⟨i, hi, ha, -, hp⟩ := h.owner _ _ (h.mapped x hx)
    obtain ⟨j, hj, hb, -, hq⟩ := h.owner _ _ (h.mapped y hy)
    rw [pkmapAddr_inj ((ha.symm.trans he).trans hb), hq, Option.some.injEq] at hp
    exact hne hp.symm
  count i hi := by
    by_cases h0 : w.highmem.pkmapCount i = 0
    · exact Or.inl h0
    · obtain ⟨page, hp, -, hc⟩ := h.slot i hi h0
      exact Or.inr ⟨page, hp, hc⟩

variable {pageHighMem : ℕ → Option Bool} {w : Highmem} {out : List (ℕ × ℕ)} {page : ℕ}
  (stray : ℕ → ℕ)

/-- One attempt that does not wrap. -/
theorem findUsable_step (n : ℕ) (h : w.lastPkmapNr + 1 < lastPkmap) :
    findUsable pageHighMem w stray (n + 1) =
      if w.pkmapCount (w.lastPkmapNr + 1) = 0 then some { w with lastPkmapNr := w.lastPkmapNr + 1 }
      else findUsable pageHighMem { w with lastPkmapNr := w.lastPkmapNr + 1 } stray n := by
  have hpos : ¬ w.lastPkmapNr + 1 = 0 := Nat.succ_ne_zero _
  rw [findUsable]
  simp only [Nat.mod_eq_of_lt h, hpos, if_false, Option.bind_some]

/-- Without a wrap the search stops at a usable slot. -/
theorem findUsable_ahead (n : ℕ) {j : ℕ} (hj : j < lastPkmap) (h0 : w.pkmapCount j = 0)
    (hlast : w.lastPkmapNr < j) (hn : j ≤ w.lastPkmapNr + n) :
    ∃ k, w.lastPkmapNr < k ∧ k ≤ j ∧ w.pkmapCount k = 0 ∧
      findUsable pageHighMem w stray n = some { w with lastPkmapNr := k } := by
  induction n generalizing w with
  | zero => omega
  | succ n ih =>
    rw [findUsable_step stray n (by omega)]
    split
    · rename_i hc
      exact ⟨w.lastPkmapNr + 1, by omega, by omega, hc, rfl⟩
    · rename_i hc
      have hne : w.lastPkmapNr + 1 ≠ j := fun he => hc (he ▸ h0)
      obtain ⟨k, h1, h2, h3, h4⟩ := ih (w := { w with lastPkmapNr := w.lastPkmapNr + 1 }) h0
        (by dsimp only; omega) (by dsimp only; omega)
      exact ⟨k, by dsimp only at h1; omega, h2, h3, h4⟩

/-- With every slot ahead in use the search wraps, flushes and goes on. -/
theorem findUsable_wrap (d n : ℕ) (hd : w.lastPkmapNr + d + 1 = lastPkmap)
    (hbusy : ∀ i < lastPkmap, w.lastPkmapNr < i → w.pkmapCount i ≠ 0) :
    findUsable pageHighMem w stray (d + (n + 1)) =
      (flushAllZeroPkmaps pageHighMem { w with lastPkmapNr := 0 } stray).bind fun flushed =>
        if flushed.pkmapCount 0 = 0 then some flushed
        else findUsable pageHighMem flushed stray n := by
  induction d generalizing w with
  | zero =>
    have hmod : (w.lastPkmapNr + 1) % lastPkmap = 0 := by
      rw [← hd, Nat.add_zero, Nat.mod_self]
    rw [Nat.zero_add, findUsable]
    simp only [hmod, if_true]
  | succ d ih =>
    have hsum : d + 1 + (n + 1) = (d + (n + 1)) + 1 := by omega
    rw [hsum, findUsable_step _ _ (by omega), if_neg (hbusy _ (by omega) (by omega))]
    have hrest := ih (w := { w with lastPkmapNr := w.lastPkmapNr + 1 }) (by dsimp only; omega)
      fun i hi hlt => hbusy i hi (by dsimp only at hlt; omega)
    rw [hrest]

/-- The ring position may be moved. -/
theorem inv_setLast (h : PkmapInv w out) {k : ℕ} (hk : k < lastPkmap) :
    PkmapInv { w with lastPkmapNr := k } out :=
  { h with last := hk }

/-- The slot that `map_new_virtual` finds, and what finding it did. -/
structure SlotFound (pageHighMem : ℕ → Option Bool) (w : Highmem) (out : List (ℕ × ℕ))
    (stray : ℕ → ℕ) (f : Highmem) : Prop where
  /-- The invariant holds. -/
  inv : PkmapInv f out
  /-- The slot is usable. -/
  usable : f.pkmapCount f.lastPkmapNr = 0
  /-- No pte changed. -/
  page : f.pkmapPage = w.pkmapPage
  /-- No page was mapped. -/
  mapped : ∀ page a, Mapped f page a → Mapped w page a
  /-- Counts of one may have been cleared by the flush. -/
  count : ∀ j < lastPkmap, f.pkmapCount j = w.pkmapCount j ∨
    w.pkmapCount j = 1 ∧ f.pkmapCount j = 0 ∧ ∃ flushed,
      flushAllZeroPkmaps pageHighMem { w with lastPkmapNr := 0 } stray = some flushed ∧
        flushed.pkmapCount j = 0

/-- With fewer pages in use than slots the search ends. -/
theorem findUsable_spec (h : PkmapInv w out)
    (hfew : (out.map Prod.fst).toFinset.card < lastPkmap)
    (hflush : (∀ i < lastPkmap, w.lastPkmapNr < i → w.pkmapCount i ≠ 0) →
      FlushHits pageHighMem { w with lastPkmapNr := 0 } stray 0 lastPkmap) :
    ∃ f, findUsable pageHighMem w stray (2 * lastPkmap) = some f ∧
      SlotFound pageHighMem w out stray f := by
  have hlast := h.last
  by_cases hahead : ∃ j, w.lastPkmapNr < j ∧ j < lastPkmap ∧ w.pkmapCount j = 0
  · obtain ⟨j, h1, h2, h3⟩ := hahead
    obtain ⟨k, hk1, hk2, hk3, hf⟩ := findUsable_ahead stray (2 * lastPkmap) h2 h3 h1 (by omega)
    exact ⟨_, hf, inv_setLast h (by omega), hk3, rfl, fun _ _ hm => hm, fun _ _ => Or.inl rfl⟩
  · have hbusy : ∀ i < lastPkmap, w.lastPkmapNr < i → w.pkmapCount i ≠ 0 :=
      fun i h2 h1 h3 => hahead ⟨i, h1, h2, h3⟩
    have hsteps : 2 * lastPkmap =
        (lastPkmap - 1 - w.lastPkmapNr) + ((lastPkmap + w.lastPkmapNr) + 1) := by omega
    have hwrap := @findUsable_wrap pageHighMem _ stray
      (lastPkmap - 1 - w.lastPkmapNr) (lastPkmap + w.lastPkmapNr) (by omega) hbusy
    obtain ⟨f, hf, hflushed, hmapped⟩ :=
      (inv_setLast h (k := 0) (by omega)).flushFrom (by omega) (hflush hbusy)
    rw [← flushAllZeroPkmaps] at hf
    obtain ⟨hpage, hzero, hcount⟩ := flush_count hf
    obtain ⟨i, hi, hidle⟩ := h.exists_idle hfew
    rw [← hsteps, hf, Option.bind_some] at hwrap
    rw [hwrap]
    dsimp only at hpage hzero hcount hmapped
    have hi0 : f.pkmapCount i = 0 := by
      rw [hcount i hi]
      split
      · rfl
      · rename_i hc
        exact hidle.resolve_right hc
    have hfound : ∀ k < lastPkmap, f.pkmapCount k = 0 →
        SlotFound pageHighMem w out stray { f with lastPkmapNr := k } := fun k hk h0 =>
      { inv := inv_setLast hflushed hk
        usable := h0
        page := hpage
        mapped := hmapped
        count := fun j hj => by
          dsimp only
          by_cases hc : w.pkmapCount j = 1
          · have h0 := hcount j hj
            rw [if_pos hc] at h0
            exact Or.inr ⟨hc, h0, f, hf, h0⟩
          · have h0 := hcount j hj
            rw [if_neg hc] at h0
            exact Or.inl h0 }
    split
    · rename_i h0
      have hf0 := hfound 0 (by omega) h0
      rw [← hzero] at hf0
      exact ⟨f, rfl, hf0⟩
    · rename_i h0
      have hipos : i ≠ 0 := fun he => h0 (he ▸ hi0)
      obtain ⟨k, hk1, hk2, hk3, hk⟩ := findUsable_ahead stray (lastPkmap + w.lastPkmapNr) hi hi0
        (by omega) (by omega)
      exact ⟨_, hk, hfound k (by omega) hk3⟩

omit stray in
/-- Counting at the address of a slot. -/
theorem addToCount_addr {i : ℕ} (hi : i < lastPkmap) (d : ℤ) :
    addToCount w (pkmapAddr i) d = some { w with
      pkmapCount := Function.update w.pkmapCount i (toSigned 32 (w.pkmapCount i + d)) } := by
  rw [addToCount, pkmapNr_addr hi, if_pos hi]

omit stray in
/-- An operation that changes neither a pte nor a count to zero keeps the slots. -/
theorem slotsKept_of_count {t : Highmem} (hpage : t.pkmapPage = w.pkmapPage)
    (hcount : ∀ i < lastPkmap, w.pkmapCount i ≠ 0 → t.pkmapCount i ≠ 0) : SlotsKept pageHighMem w t where
  cleared i hi hw ht := absurd ht (hcount i hi hw)
  reassigned _ _ _ hp hne := absurd (hpage ▸ hp) hne

omit stray in
/-- Changing the number of users of a mapped page. -/
theorem recount_step (h : PkmapInv w out) (out' : List (ℕ × ℕ)) {i : ℕ} {d : ℤ}
    (hi : i < lastPkmap) (hm : Mapped w page (pkmapAddr i)) (hd : w.pkmapCount i + d = 1 + users out' page)
    (hother : ∀ q, q ≠ page → users out' q = users out q)
    (hmapped : ∀ x ∈ out', Mapped w x.1 x.2) (hsmall : users out' page + 1 < 2 ^ 31) :
    ∃ t, addToCount w (pkmapAddr i) d = some t ∧ PkmapInv t out' ∧
      SlotsKept pageHighMem w t := by
  have hcast : (1 + (users out' page : ℤ)) = ((1 + users out' page : ℕ) : ℤ) := by omega
  have hfits : toSigned 32 (w.pkmapCount i + d) = 1 + users out' page := by
    rw [hd, hcast, toSigned_of_lt (by omega) (by omega)]
  rw [addToCount_addr hi, hfits]
  refine ⟨_, rfl, h.recount hi hm hother hmapped hsmall,
    slotsKept_of_count rfl fun j _ hj => ?_⟩
  dsimp only
  rw [Function.update_apply]
  split
  · omega
  · exact hj

/-- `kmap_high` of a page without an address, once a usable slot is found. -/
theorem kmapHigh_found {f : Highmem} (hhigh : (pageHighMem page).isSome)
    (hz : pageAddress w page = 0) (hf : findUsable pageHighMem w stray (2 * lastPkmap) = some f)
    (hlast : f.lastPkmapNr < lastPkmap) {pam : ℕ} {pool : List ℕ}
    (hpool : f.pageAddressPool = pam :: pool) :
    kmapHigh pageHighMem w page stray = some (pkmapAddr f.lastPkmapNr, { f with
      pkmapPage := Function.update f.pkmapPage f.lastPkmapNr (some page)
      pkmapCount := Function.update f.pkmapCount f.lastPkmapNr 2
      toPageAddressTable :=
        ⟨Function.update f.pageAddressMaps pam ⟨page, pkmapAddr f.lastPkmapNr⟩, pool,
          Function.update f.pageAddressHtable (pageSlot page)
            (f.pageAddressHtable (pageSlot page) ++ [pam])⟩ }) := by
  obtain ⟨high, hhigh⟩ := Option.isSome_iff_exists.mp hhigh
  have hb := pkmapAddr_bounds hlast
  have hwrap : wrap 32 (pkmapAddr f.lastPkmapNr) = pkmapAddr f.lastPkmapNr := wrap_of_lt hb.2
  have hzero : wrap 32 0 = 0 := rfl
  have htwo : toSigned 32 (1 + 1) = 2 := toSigned_of_lt (n := 2) (by omega) (by omega)
  rw [kmapHigh, hz, if_pos hzero, mapNewVirtual, hf, Option.bind_some]
  dsimp only
  rw [setPageAddress, hhigh, Option.bind_some, PageAddressModel.setPageAddress_add hb.1.ne' hpool,
    Option.map_some, Option.map_some, Option.bind_some]
  dsimp only
  rw [hwrap, addToCount_addr hlast, Option.map_some]
  dsimp only
  rw [Function.update_self, Function.update_idem, htwo]

/-- `kmap_high` of a page without an address. -/
theorem kmapHigh_new (h : PkmapInv w out) (hhigh : (pageHighMem page).isSome)
    (hnew : ∀ a, ¬ Mapped w page a) {f : Highmem}
    (hf : findUsable pageHighMem w stray (2 * lastPkmap) = some f)
    (hs : SlotFound pageHighMem w out stray f) :
    ∃ t, kmapHigh pageHighMem w page stray = some (pkmapAddr f.lastPkmapNr, t) ∧
      PkmapInv t ((page, pkmapAddr f.lastPkmapNr) :: out) ∧ SlotsKept pageHighMem w t := by
  have hlast := hs.inv.last
  have hpool : f.pageAddressPool ≠ [] := by
    have hused := usable_use (c := 2) hlast hs.usable (by omega)
    have hlen := hs.inv.pool
    refine List.length_pos_iff.mp ?_
    omega
  obtain ⟨pam, pool, hpool⟩ := List.exists_cons_of_ne_nil hpool
  have hassigned := hs.inv.assign hs.usable (fun a hm => hnew a (hs.mapped page a hm)) hpool
  refine ⟨_, kmapHigh_found stray hhigh (pageAddress_zero hnew) hf hlast hpool, hassigned, ?_⟩
  exact
    { cleared := fun i hi hw ht => by
        have hne : i ≠ f.lastPkmapNr := by
          rintro rfl
          dsimp only at ht
          rw [Function.update_self] at ht
          omega
        have h0 := ht
        dsimp only at h0
        rw [Function.update_of_ne hne] at h0
        obtain ⟨q, hq, hqm, -⟩ := h.slot i hi hw
        refine ⟨?_, ⟨q, hq, hqm⟩, fun q hq => hassigned.not_mapped ht q hq⟩
        rcases hs.count i hi with hc | hc
        · exact absurd (hc.symm.trans h0) hw
        · exact hc.1
      reassigned := fun i hi q hq hne => by
        have hil : i = f.lastPkmapNr := by
          by_contra hil
          refine hne ?_
          dsimp only
          rw [Function.update_of_ne hil, hs.page, hq]
        subst hil
        refine ⟨?_, fun hm => ?_⟩
        · rcases hs.count _ hi with hc | hc
          · exact Or.inl (hc.symm.trans hs.usable)
          · exact Or.inr ⟨hc.1, stray, hc.2.2⟩
        · obtain ⟨j, -, hj, -, hjpage⟩ := hassigned.owner q _ hm
          rw [← pkmapAddr_inj hj] at hjpage
          exact hne hjpage }

/-- `kmap_high` of a page returns, and the slots stay consistent. -/
theorem kmapHigh_step (h : PkmapInv w out) (hhigh : (pageHighMem page).isSome)
    (hfew : (out.map Prod.fst).toFinset.card < lastPkmap) (hsmall : users out page + 2 < 2 ^ 31)
    (hflush : pageAddress w page = 0 →
      (∀ i < lastPkmap, w.lastPkmapNr < i → w.pkmapCount i ≠ 0) →
      FlushHits pageHighMem { w with lastPkmapNr := 0 } stray 0 lastPkmap) :
    ∃ a t, kmapHigh pageHighMem w page stray = some (a, t) ∧ PkmapInv t ((page, a) :: out) ∧
      SlotsKept pageHighMem w t := by
  by_cases hm : ∃ a, Mapped w page a
  · obtain ⟨a, hm⟩ := hm
    obtain ⟨i, hi, rfl, hcount, hpage⟩ := h.owner page a hm
    have hb := pkmapAddr_bounds hi
    have hu : users ((page, pkmapAddr i) :: out) page = users out page + 1 := by
      rw [users_cons, if_pos rfl]
    obtain ⟨q, hq, -, hc⟩ := h.slot i hi hcount
    rw [hpage, Option.some.injEq] at hq
    rw [← hq] at hc
    obtain ⟨t, ht, hinv, hkept⟩ := recount_step h ((page, pkmapAddr i) :: out) (d := 1) hi hm
      (by rw [hu, hc]; push_cast; omega)
      (fun p hp => by rw [users_cons, if_neg hp, Nat.add_zero])
      (fun x hx => by
        rcases List.mem_cons.mp hx with rfl | hx
        · exact hm
        · exact h.mapped x hx) (by omega)
    refine ⟨pkmapAddr i, t, ?_, hinv, hkept⟩
    rw [kmapHigh, h.pageAddress_eq hm, wrap_of_lt hb.2, if_neg (by omega), Option.bind_some]
    dsimp only
    rw [wrap_of_lt hb.2, ht, Option.map_some]
  · have hnew : ∀ a, ¬ Mapped w page a := fun a ha => hm ⟨a, ha⟩
    obtain ⟨f, hf, hs⟩ := findUsable_spec stray h hfew (hflush (pageAddress_zero hnew))
    obtain ⟨t, ht, hinv, hkept⟩ := kmapHigh_new stray h hhigh hnew hf hs
    exact ⟨pkmapAddr f.lastPkmapNr, t, ht, hinv, hkept⟩

omit stray in
/-- The users after one kmap is given back. -/
theorem users_erase {x : ℕ × ℕ} (hx : x ∈ out) (hp : x.1 = page) (q : ℕ) :
    users out q = users (out.eraseP fun x => x.1 = page) q + if q = page then 1 else 0 := by
  obtain ⟨y, l, k, -, hy, hout, herase⟩ :=
    List.exists_of_eraseP (p := fun x : ℕ × ℕ => x.1 = page) hx (decide_eq_true hp)
  have hperm : out.Perm (y :: (l ++ k)) := hout ▸ List.perm_middle
  have hcount : users out q = users (y :: (l ++ k)) q := hperm.countP_eq _
  rw [herase, hcount, users_cons, of_decide_eq_true hy]

omit stray in
/-- `kunmap_high` of a page in use returns, and the slots stay consistent. -/
theorem kunmapHigh_step (h : PkmapInv w out) (hused : 0 < users out page) :
    ∃ t, kunmapHigh w page = some t ∧ PkmapInv t (out.eraseP fun x => x.1 = page) ∧
      SlotsKept pageHighMem w t := by
  obtain ⟨x, hx, hxp⟩ := List.countP_pos_iff.mp hused
  have hxp := of_decide_eq_true hxp
  have hm := h.mapped x hx
  rw [hxp] at hm
  obtain ⟨i, hi, ha, hcount, hpage⟩ := h.owner page _ hm
  rw [ha] at hm
  obtain ⟨q, hq, -, hc⟩ := h.slot i hi hcount
  rw [hpage, Option.some.injEq] at hq
  rw [← hq] at hc
  have hu := users_erase hx hxp page
  rw [if_pos rfl] at hu
  have hsmall := h.small page
  rw [kunmapHigh, h.pageAddress_eq hm]
  refine recount_step h _ hi hm (by omega) (fun p hp => ?_)
    (fun y hy => h.mapped y (List.mem_of_mem_eraseP hy)) (by omega)
  rw [users_erase hx hxp p, if_neg hp, Nat.add_zero]

section Runs

variable (lowmemPageAddress : ℕ → ℕ)

omit stray in
/-- One operation keeps the invariant and the slots. -/
theorem perform_step {w : KmapWorld} {op : KmapOp} (h : PkmapInv w.highmem w.out)
    (hlegal : Legal pageHighMem w op) (hflush : FlushesRight pageHighMem w op) :
    ∃ t, perform pageHighMem lowmemPageAddress w op = some t ∧ PkmapInv t.highmem t.out ∧
      SlotsKept pageHighMem w.highmem t.highmem := by
  have hsame : SlotsKept pageHighMem w.highmem w.highmem := slotsKept_of_count rfl fun _ _ hc => hc
  cases op with
  | kmap page stray =>
    obtain ⟨high, hhigh⟩ := Option.isSome_iff_exists.mp hlegal.1
    rw [perform, kmap, hhigh, Option.bind_some]
    cases high with
    | true =>
      obtain ⟨a, t, ht, hinv, hkept⟩ :=
        kmapHigh_step stray h hlegal.1 hlegal.2.1 hlegal.2.2 (hflush hhigh)
      simp only [if_true, ht, Option.map_some]
      exact ⟨_, rfl, hinv, hkept⟩
    | false => exact ⟨_, rfl, h, hsame⟩
  | kunmap page =>
    obtain ⟨high, hhigh⟩ := Option.isSome_iff_exists.mp hlegal.1
    rw [perform, kunmap, hhigh, Option.bind_some]
    cases high with
    | true =>
      obtain ⟨t, ht, hinv, hkept⟩ := kunmapHigh_step h (hlegal.2 hhigh)
      simp only [if_true, ht, Option.map_some]
      exact ⟨_, rfl, hinv, hkept⟩
    | false => exact ⟨_, rfl, h, hsame⟩

omit stray in
/-- Nothing is mapped at first. -/
theorem pageAddressInit_inv : PkmapInv pageAddressInit [] where
  separate := PageAddressHistory.initWorld_inv.separate
  placed _ _ hm := absurd hm List.not_mem_nil
  single _ hx := by
    obtain ⟨_, hk⟩ := mem_members.mp hx
    cases hk
  owner _ _ hm := by
    obtain ⟨_, hx, -⟩ := hm
    obtain ⟨_, hk⟩ := mem_members.mp hx
    cases hk
  slot _ _ hc := absurd rfl hc
  mapped _ hx := (by cases hx)
  pool := by
    have hall : usable pageAddressInit.pkmapCount = Finset.range lastPkmap :=
      Finset.filter_true_of_mem fun _ _ => rfl
    have hpool : pageAddressInit.pageAddressPool = (List.range lastPkmap).reverse :=
      PageAddressHistory.initWorld_pool
    rw [hall, Finset.card_range, hpool, List.length_reverse, List.length_range]
  last := by decide
  small _ := by
    rw [users, List.countP_nil]
    omega

omit stray in
/-- Over every run whose flushes remove the right entries, `kmap` returns, its addresses refer to
their pages, pages in use never share a slot, the counts are exact, and a slot is reassigned only
after it was flushed. -/
theorem history_keepsSlots (ops : List KmapOp)
    (hrun : Admissible (perform pageHighMem lowmemPageAddress)
      (fun w op => Legal pageHighMem w op ∧ FlushesRight pageHighMem w op) ⟨pageAddressInit, []⟩ ops)
    (done rest : List KmapOp) (op : KmapOp) (hops : ops = done ++ op :: rest) :
    ∃ w t, exec (perform pageHighMem lowmemPageAddress) ⟨pageAddressInit, []⟩ done = some w ∧
      perform pageHighMem lowmemPageAddress w op = some t ∧ SlotsSound w ∧ SlotsSound t ∧
      SlotsKept pageHighMem w.highmem t.highmem := by
  rw [hops] at hrun
  obtain ⟨w, hw, hinv⟩ := exec_total
    (fun (w : KmapWorld) (op : KmapOp) (h : PkmapInv w.highmem w.out) hok => by
      obtain ⟨t, ht, hinv, -⟩ := perform_step lowmemPageAddress h hok.1 hok.2
      exact ⟨t, ht, hinv⟩) pageAddressInit_inv hrun.prefix
  have hok := (hrun.suffix hw).1
  obtain ⟨t, ht, hinv', hkept⟩ := perform_step lowmemPageAddress hinv hok.1 hok.2
  exact ⟨w, t, hw, ht, slotsSound_of_inv hinv, slotsSound_of_inv hinv', hkept⟩

end Runs

/-- Stray words that are the pages of their slots hit, when nobody uses a page and the entries of a
bucket are in the order of their slots. -/
theorem flushHits_ordered {n i : ℕ} (h : PkmapInv w []) (hin : i + n ≤ lastPkmap)
    (hbelow : ∀ j < i, w.pkmapCount j = 0)
    (hstray : ∀ j < lastPkmap, w.pkmapCount j = 1 →
      stray j ≠ 0 ∧ (pageHighMem (stray j)).isSome ∧ w.pkmapPage j = some (stray j))
    (horder : ∀ k, ((w.pageAddressHtable k).map w.pageAddressMaps).Pairwise
      fun x y => x.virtual < y.virtual) :
    FlushHits pageHighMem w stray i n := by
  induction n generalizing w i with
  | zero => trivial
  | succ n ih =>
    have hi : i < lastPkmap := by omega
    have hhit : w.pkmapCount i = 1 → StrayHits pageHighMem w stray i := by
      intro hc
      obtain ⟨hpos, hsome, hpage⟩ := hstray i hi hc
      refine ⟨hpos, hsome, ?_⟩
      obtain ⟨page, hp, ⟨pam, hpam, hentry⟩, -⟩ := h.slot i hi (by omega)
      rw [hpage, Option.some.injEq] at hp
      have hmem := h.mem_bucket hpam
      rw [hentry, ← hp] at hmem
      cases hb : w.pageAddressHtable (pageSlot (stray i)) with
      | nil =>
        rw [hb] at hmem
        cases hmem
      | cons first rest =>
        rw [List.head?_cons, Option.map_some, Option.some.injEq]
        rw [hb] at hmem
        rcases List.mem_cons.mp hmem with rfl | hrest
        · rw [hentry]
        have hless := horder (pageSlot (stray i))
        rw [hb, List.map_cons, List.pairwise_cons] at hless
        have hlt := hless.1 _ (List.mem_map_of_mem hrest)
        obtain ⟨j, -, hj, hcount, -⟩ := h.owner (w.pageAddressMaps first).page
          (w.pageAddressMaps first).virtual
          ⟨first, mem_members.mpr ⟨_, hb ▸ List.mem_cons_self⟩, rfl⟩
        rw [hentry, hj, pkmapAddr_lt] at hlt
        exact absurd (hbelow j hlt) hcount
    refine ⟨hhit, fun t ht => ?_⟩
    obtain ⟨u, hu, hflushed⟩ := h.flushSlot hi hhit
    rw [Option.mem_def, hu, Option.some.injEq] at ht
    subst ht
    obtain ⟨hpage, -, hcount⟩ := flushSlot_keeps hu
    have hzero : w.pkmapCount i ≠ 1 → w.pkmapCount i = 0 := by
      intro hne
      by_contra h0
      obtain ⟨_, -, -, hone⟩ := h.slot i hi h0
      exact hne hone
    refine ih hflushed.inv (by omega) (fun j hj => ?_) (fun j hj hc => ?_) fun k =>
      (horder k).sublist (hflushed.buckets k)
    · rw [hcount]
      split
      · rw [Function.update_apply]
        split
        · rfl
        · exact hbelow j (by omega)
      · rename_i hne
        obtain rfl | hlt : j = i ∨ j < i := by omega
        · exact hzero hne
        · exact hbelow j hlt
    · rw [hpage]
      refine hstray j hj ?_
      rw [hcount] at hc
      split at hc
      · rename_i hone
        rw [Function.update_apply] at hc
        split at hc
        · omega
        · exact hc
      · exact hc

/-- The descriptors used below. -/
def descriptor (k : ℕ) : ℕ := 0x10000 + 64 * k

/-- The descriptors from `0x10000` on are of pages in high memory; there are no others. -/
def highDescriptors (page : ℕ) : Option Bool := if 0x10000 ≤ page then some true else none

/-- Perform an operation on these descriptors. -/
def performHigh : KmapWorld → KmapOp → Option KmapWorld := perform highDescriptors fun _ => 0

/-- A descriptor is read. -/
theorem highDescriptors_descriptor (k : ℕ) : highDescriptors (descriptor k) = some true := by
  rw [highDescriptors, if_pos (by rw [descriptor]; omega)]

/-- What is done where `kmap_high` returns. -/
theorem performHigh_kmap {w : KmapWorld} {t : Highmem} {k a : ℕ}
    (h : kmapHigh highDescriptors w.highmem (descriptor k) stray = some (a, t)) :
    performHigh w (.kmap (descriptor k) stray) = some ⟨t, (descriptor k, a) :: w.out⟩ := by
  rw [performHigh, perform, kmap, highDescriptors_descriptor, Option.bind_some, if_pos rfl, h,
    Option.map_some, if_pos rfl]

omit stray in
/-- Few users may map any page. -/
theorem legal_kmap {w : KmapWorld} {stray : ℕ → ℕ} (hhigh : (pageHighMem page).isSome)
    (h : w.out.length < lastPkmap) : Legal pageHighMem w (.kmap page stray) := by
  have hcard := List.toFinset_card_le (w.out.map Prod.fst)
  have husers : users w.out page ≤ w.out.length := List.countP_le_length
  rw [List.length_map] at hcard
  rw [lastPkmap] at h
  refine ⟨hhigh, ?_, by omega⟩
  rw [lastPkmap]
  omega

/-- Map and unmap the first `n` pages, one after the other. -/
def fillRing : ℕ → List KmapOp
  | 0 => []
  | n + 1 => fillRing n ++
      [.kmap (descriptor (n + 1)) fun _ => descriptor 2, .kunmap (descriptor (n + 1))]

/-- The ring after `fillRing`. -/
structure Filled (n : ℕ) (w : KmapWorld) : Prop where
  /-- The invariant holds. -/
  inv : PkmapInv w.highmem []
  /-- Nobody uses a page. -/
  out : w.out = []
  /-- The ring position is the last slot used. -/
  last : w.highmem.lastPkmapNr = n
  /-- The slots used have count one. -/
  count : ∀ i, w.highmem.pkmapCount i = if 1 ≤ i ∧ i ≤ n then 1 else 0
  /-- The slots used refer to the pages in order. -/
  page : ∀ i, 1 ≤ i → i ≤ n → w.highmem.pkmapPage i = some (descriptor i)
  /-- The entries of a bucket are in the order of their slots. -/
  order : ∀ k, ((w.highmem.pageAddressHtable k).map w.highmem.pageAddressMaps).Pairwise
    fun x y => x.virtual < y.virtual

/-- The entries have addresses of slots used. -/
theorem Filled.virtual_le {n k pam : ℕ} {w : KmapWorld} (h : Filled n w)
    (hpam : pam ∈ w.highmem.pageAddressHtable k) :
    ∃ i ≤ n, (w.highmem.pageAddressMaps pam).virtual = pkmapAddr i ∧
      w.highmem.pkmapPage i = some (w.highmem.pageAddressMaps pam).page ∧ 1 ≤ i := by
  obtain ⟨i, -, hv, hcount, hpage⟩ := h.inv.owner (w.highmem.pageAddressMaps pam).page
    (w.highmem.pageAddressMaps pam).virtual ⟨pam, mem_members.mpr ⟨k, hpam⟩, rfl⟩
  rw [h.count] at hcount
  split at hcount
  · rename_i hi
    exact ⟨i, hi.2, hv, hpage, hi.1⟩
  · exact absurd rfl hcount

/-- A page that was not mapped yet has no entry. -/
theorem Filled.not_mapped {n k : ℕ} {w : KmapWorld} (h : Filled n w) (hk : n < k) (a : ℕ) :
    ¬ Mapped w.highmem (descriptor k) a := by
  rintro ⟨pam, hpam, hentry⟩
  obtain ⟨b, hb⟩ := mem_members.mp hpam
  obtain ⟨i, hi, -, hpage, hpos⟩ := h.virtual_le hb
  rw [h.page i hpos hi, hentry, Option.some.injEq] at hpage
  dsimp only at hpage
  rw [descriptor, descriptor] at hpage
  omega

/-- The pool has an entry as long as a slot was not used. -/
theorem Filled.pool {n : ℕ} {w : KmapWorld} (h : Filled n w) :
    ∃ pam pool, w.highmem.pageAddressPool = pam :: pool ∧
      ∀ k, pam ∉ w.highmem.pageAddressHtable k := by
  have hmem : 0 ∈ usable w.highmem.pkmapCount :=
    Finset.mem_filter.mpr ⟨Finset.mem_range.mpr (by decide), by rw [h.count]; rfl⟩
  have hpos := Finset.card_pos.mpr ⟨0, hmem⟩
  rw [← h.inv.pool] at hpos
  obtain ⟨pam, pool, hpool⟩ := List.exists_cons_of_ne_nil (List.length_pos_iff.mp hpos)
  refine ⟨pam, pool, hpool, fun k hk => ?_⟩
  have hin : pam ∈ PageAddressHistory.places w.highmem.toPageAddressTable none := by
    rw [PageAddressHistory.places, Option.elim_none, hpool]
    exact List.mem_cons_self
  exact Option.some_ne_none k (h.inv.separate.unique pam (some k) none hk hin)

/-- Mapping the next page. -/
theorem Filled.kmap {n : ℕ} {w : KmapWorld} (h : Filled n w) (hn : n + 1 < lastPkmap) :
    ∃ t, performHigh w (.kmap (descriptor (n + 1)) fun _ => descriptor 2) =
        some ⟨t, [(descriptor (n + 1), pkmapAddr (n + 1))]⟩ ∧
      PkmapInv t [(descriptor (n + 1), pkmapAddr (n + 1))] ∧ t.lastPkmapNr = n + 1 ∧
      t.pkmapCount = Function.update w.highmem.pkmapCount (n + 1) 2 ∧
      t.pkmapPage = Function.update w.highmem.pkmapPage (n + 1) (some (descriptor (n + 1))) ∧
      ∀ k, ((t.pageAddressHtable k).map t.pageAddressMaps).Pairwise
        fun x y => x.virtual < y.virtual := by
  obtain ⟨pam, pool, hpool, hout⟩ := h.pool
  have hz : w.highmem.pkmapCount (n + 1) = 0 := by
    rw [h.count, if_neg (by omega)]
  have hhigh := highDescriptors_descriptor (n + 1)
  have hf : findUsable highDescriptors w.highmem (fun _ => descriptor 2) (2 * lastPkmap) =
      some { w.highmem with lastPkmapNr := n + 1 } := by
    have hsteps : 2 * lastPkmap = (2 * lastPkmap - 1) + 1 := by omega
    rw [hsteps, findUsable_step _ _ (by rw [h.last]; exact hn), h.last, if_pos hz]
  have hnew := h.not_mapped (k := n + 1) (by omega)
  have hinv := (inv_setLast h.inv hn).assign hz hnew hpool
  have hmap := kmapHigh_found (fun _ => descriptor 2) (Option.isSome_of_eq_some hhigh)
    (pageAddress_zero hnew) hf hn hpool
  have hperform := performHigh_kmap (fun _ => descriptor 2) hmap
  rw [h.out] at hperform
  refine ⟨_, hperform, hinv, rfl, rfl, rfl, fun k => ?_⟩
  dsimp only
  rw [Function.update_apply]
  split
  · rw [List.map_append, PageAddressHistory.map_update (hout _), List.map_singleton,
      Function.update_self]
    refine List.pairwise_append.mpr ⟨h.order _, List.pairwise_singleton _ _, ?_⟩
    rintro x hx y hy
    obtain ⟨pam', hpam', rfl⟩ := List.mem_map.mp hx
    obtain ⟨i, hi, hv, -, -⟩ := h.virtual_le hpam'
    rw [List.mem_singleton.mp hy, hv]
    exact pkmapAddr_lt.mpr (Nat.lt_succ_of_le hi)
  · rw [PageAddressHistory.map_update (hout k)]
    exact h.order k

/-- Mapping and unmapping the next page. -/
theorem Filled.next {n : ℕ} {w : KmapWorld} (h : Filled n w) (hn : n + 1 < lastPkmap) :
    ∃ t u, performHigh w (.kmap (descriptor (n + 1)) fun _ => descriptor 2) = some t ∧
      t.out = [(descriptor (n + 1), pkmapAddr (n + 1))] ∧
      performHigh t (.kunmap (descriptor (n + 1))) = some u ∧ Filled (n + 1) u := by
  obtain ⟨t, ht, hinv, hlast, hcount, hpage, horder⟩ := h.kmap hn
  have hhigh := highDescriptors_descriptor (n + 1)
  have hm : Mapped t (descriptor (n + 1)) (pkmapAddr (n + 1)) := hinv.mapped _ List.mem_cons_self
  have hone : toSigned 32 (2 + -1) = 1 := toSigned_of_lt (n := 1) (by omega) (by omega)
  have hused : 0 < users [(descriptor (n + 1), pkmapAddr (n + 1))] (descriptor (n + 1)) := by
    rw [users_cons, if_pos rfl]
    omega
  obtain ⟨u, hu, huinv, -⟩ := @kunmapHigh_step highDescriptors _ _ _ hinv hused
  have herase : ([(descriptor (n + 1), pkmapAddr (n + 1))] : List (ℕ × ℕ)).eraseP
      (fun x => x.1 = descriptor (n + 1)) = [] :=
    List.eraseP_cons_of_pos (decide_eq_true rfl)
  rw [herase] at huinv
  have hcounted := hu
  rw [kunmapHigh, hinv.pageAddress_eq hm, addToCount_addr hn, Option.some.injEq] at hcounted
  refine ⟨_, ⟨u, []⟩, ht, rfl, ?_, ?_⟩
  · simp only [performHigh, perform, kunmap, hhigh, Option.bind_some, if_true, hu, Option.map_some,
      herase]
  rw [← hcounted] at huinv ⊢
  exact
    { inv := huinv
      out := rfl
      last := hlast
      count := fun i => by
        dsimp only
        rw [hcount, Function.update_self, hone, Function.update_idem, Function.update_apply, h.count]
        by_cases hi : i = n + 1
        · rw [if_pos hi, if_pos (by omega)]
        · rw [if_neg hi]
          have hiff : (1 ≤ i ∧ i ≤ n) ↔ (1 ≤ i ∧ i ≤ n + 1) := by omega
          simp only [hiff]
      page := fun i h1 h2 => by
        dsimp only
        rw [hpage, Function.update_apply]
        split
        · rename_i hi
          rw [hi]
        · rename_i hi
          exact h.page i h1 (by omega)
      order := horder }

/-- `fillRing` uses up the slots behind the first one, without a flush. -/
theorem fillRing_filled {n : ℕ} (hn : n < lastPkmap) :
    Admissible performHigh
        (fun w op => Legal highDescriptors w op ∧ FlushesRight highDescriptors w op)
        ⟨pageAddressInit, []⟩ (fillRing n) ∧
      ∃ w, exec performHigh ⟨pageAddressInit, []⟩ (fillRing n) = some w ∧ Filled n w := by
  induction n with
  | zero =>
    refine ⟨trivial, _, rfl, pageAddressInit_inv, rfl, rfl, fun i => ?_, fun i h1 h2 => by omega,
      fun _ => .nil⟩
    rw [if_neg (by omega)]
    rfl
  | succ n ih =>
    obtain ⟨hadm, w, hw, hfilled⟩ := ih (by omega)
    obtain ⟨t, u, ht, hout, hu, hnext⟩ := hfilled.next hn
    have hsome := Option.isSome_of_eq_some (highDescriptors_descriptor (n + 1))
    have hrun : exec performHigh w
        [.kmap (descriptor (n + 1)) fun _ => descriptor 2, .kunmap (descriptor (n + 1))] =
        some u := by
      rw [exec, ht, Option.bind_some, exec, hu]
      rfl
    refine ⟨hadm.append fun w' hw' => ?_, u, ?_, hnext⟩
    · cases hw.symm.trans hw'
      refine ⟨⟨legal_kmap hsome (by rw [hfilled.out]; decide), fun _ _ hbusy => ?_⟩,
        fun t' ht' => ?_⟩
      · refine absurd ?_ (hbusy (n + 1) hn (by rw [hfilled.last]; omega))
        rw [hfilled.count, if_neg (by omega)]
      cases ht.symm.trans ht'
      refine ⟨⟨⟨hsome, fun _ => ?_⟩, trivial⟩, fun _ _ => trivial⟩
      rw [hout, users_cons, if_pos rfl]
      omega
    · rw [fillRing, exec_append, hw, Option.bind_some, hrun]

/-- The pages of the slots, in their order, flush the ring right. -/
theorem Filled.flushesRight {n : ℕ} {w : KmapWorld} (h : Filled n w) (page : ℕ) :
    FlushesRight highDescriptors w (.kmap page descriptor) := by
  intro _ _ _
  refine flushHits_ordered descriptor (inv_setLast h.inv (by decide)) (by omega)
    (fun j hj => by omega) (fun j _ hc => ?_) h.order
  have hcount := h.count j
  rw [hc] at hcount
  split at hcount
  · rename_i hj
    refine ⟨?_, Option.isSome_of_eq_some (highDescriptors_descriptor j), h.page j hj.1 hj.2⟩
    rw [descriptor]
    omega
  · omega

/-- One more page may be mapped behind a run that fills the ring. -/
theorem flushRing_admissible {n k : ℕ} {ring : List KmapOp}
    (hring : Admissible performHigh
        (fun w op => Legal highDescriptors w op ∧ FlushesRight highDescriptors w op)
        ⟨pageAddressInit, []⟩ ring ∧
      ∃ w, exec performHigh ⟨pageAddressInit, []⟩ ring = some w ∧ Filled n w) :
    Admissible performHigh
      (fun w op => Legal highDescriptors w op ∧ FlushesRight highDescriptors w op)
      ⟨pageAddressInit, []⟩ (ring ++ [.kmap (descriptor k) descriptor]) := by
  obtain ⟨hadm, w, hw, hfilled⟩ := hring
  refine hadm.append fun w' hw' => ?_
  cases hw.symm.trans hw'
  exact ⟨⟨legal_kmap (Option.isSome_of_eq_some (highDescriptors_descriptor k))
    (by rw [hfilled.out]; decide), hfilled.flushesRight _⟩, fun _ _ => trivial⟩

/-- A ring whose slots are all used is flushed when one more page is mapped. -/
theorem history_keepsSlots_flush :
    ∃ w t, exec performHigh ⟨pageAddressInit, []⟩ (fillRing 511) = some w ∧
      performHigh w (.kmap (descriptor 512) descriptor) = some t ∧ SlotsSound w ∧ SlotsSound t ∧
      SlotsKept highDescriptors w.highmem t.highmem := by
  have hring := fillRing_filled (n := 511) (by decide)
  generalize fillRing 511 = ring at hring ⊢
  exact history_keepsSlots (fun _ => 0) _ (flushRing_admissible hring) ring []
    (.kmap (descriptor 512) descriptor) rfl

/-- A change of the table that only takes entries off one bucket. -/
structure OneBucket (w t : Highmem) (k : ℕ) : Prop where
  /-- The pool only grows at its end. -/
  pool : w.pageAddressPool <+: t.pageAddressPool
  /-- The other buckets stay. -/
  others : ∀ b, b ≠ k → t.pageAddressHtable b = w.pageAddressHtable b
  /-- Nothing is put on the bucket. -/
  own : ∀ x ∈ t.pageAddressHtable k, x ∈ w.pageAddressHtable k
  /-- Elements outside the bucket stay. -/
  maps : ∀ x ∉ w.pageAddressHtable k, t.pageAddressMaps x = w.pageAddressMaps x

/-- One change after the other. -/
theorem OneBucket.trans {t u : Highmem} {k : ℕ} (h : OneBucket w t k) (h' : OneBucket t u k) :
    OneBucket w u k where
  pool := h.pool.trans h'.pool
  others b hb := (h'.others b hb).trans (h.others b hb)
  own x hx := h.own x (h'.own x hx)
  maps x hx := (h'.maps x fun hx' => hx (h.own x hx')).trans (h.maps x hx)

omit stray in
/-- With one stray page, whose descriptor is read, flushing a slot changes its bucket only. -/
theorem flushSlot_oneBucket {s : ℕ} (hs : s ≠ 0) (hhigh : (pageHighMem s).isSome) (w : Highmem)
    (i : ℕ) : ∃ t, flushSlot pageHighMem w (fun _ => s) i = some t ∧ OneBucket w t (pageSlot s) := by
  obtain ⟨high, hhigh⟩ := Option.isSome_iff_exists.mp hhigh
  have hsame : ∀ count, OneBucket w { w with pkmapCount := count } (pageSlot s) := fun _ =>
    ⟨List.prefix_rfl, fun _ _ => rfl, fun _ hx => hx, fun _ _ => rfl⟩
  by_cases hc : w.pkmapCount i = 1
  swap
  · exact ⟨w, by rw [flushSlot, if_neg hc], hsame w.pkmapCount⟩
  rw [flushSlot, if_pos hc, setPageAddress, hhigh, Option.bind_some]
  cases hb : w.pageAddressHtable (pageSlot s) with
  | nil => exact ⟨_, by rw [PageAddressModel.setPageAddress_empty hb, Option.map_some], hsame _⟩
  | cons pam rest =>
    refine ⟨_, by rw [PageAddressModel.setPageAddress_clear hs hb, Option.map_some], ?_⟩
    exact
      { pool := List.prefix_append _ _
        others := fun b hne => Function.update_of_ne hne _ _
        own := fun x hx => by
          dsimp only at hx
          rw [Function.update_self] at hx
          rw [hb]
          exact List.mem_cons_of_mem _ hx
        maps := fun x hx => by
          have hne : x ≠ pam := by
            rintro rfl
            exact hx (hb ▸ List.mem_cons_self)
          exact Function.update_of_ne hne _ _ }

omit stray in
/-- With one stray page the flush returns and changes its bucket only. -/
theorem flushFrom_oneBucket {s : ℕ} (hs : s ≠ 0) (hhigh : (pageHighMem s).isSome) (w : Highmem)
    (i n : ℕ) :
    ∃ t, flushFrom pageHighMem w (fun _ => s) i n = some t ∧ OneBucket w t (pageSlot s) := by
  induction n generalizing w i with
  | zero => exact ⟨w, rfl, List.prefix_rfl, fun _ _ => rfl, fun _ hx => hx, fun _ _ => rfl⟩
  | succ n ih =>
    obtain ⟨t, ht, hslot⟩ := flushSlot_oneBucket hs hhigh w i
    obtain ⟨u, hu, hrest⟩ := ih t (i + 1)
    exact ⟨u, by rw [flushFrom, ht, Option.bind_some, hu], hslot.trans hrest⟩

/-- `page_address` by the entries of the bucket. -/
theorem pageAddress_congr {t : Highmem}
    (hbucket : t.pageAddressHtable (pageSlot page) = w.pageAddressHtable (pageSlot page))
    (hmaps : ∀ x ∈ w.pageAddressHtable (pageSlot page), t.pageAddressMaps x = w.pageAddressMaps x) :
    pageAddress t page = pageAddress w page := by
  rw [pageAddress, pageAddress, PageAddressModel.pageAddress, PageAddressModel.pageAddress,
    ← PageAddressHistory.addressOf_map, ← PageAddressHistory.addressOf_map, hbucket,
    List.map_congr_left hmaps]

/-- Mapping one more page flushes the ring with the wrong page. -/
theorem Filled.wrapped {n : ℕ} {w : KmapWorld} (h : Filled n w) (hn : n + 1 = lastPkmap) :
    ∃ t, performHigh w (.kmap (descriptor 512) fun _ => descriptor 2) =
        some ⟨t, [(descriptor 512, pkmapAddr 0)]⟩ ∧
      t.pkmapCount 1 = 0 ∧ t.pkmapPage 1 = some (descriptor 1) ∧
      pageAddress t (descriptor 1) = pkmapAddr 1 := by
  have hone : 1 < lastPkmap := by decide
  have hhigh := highDescriptors_descriptor 512
  obtain ⟨pam, pool, hpool, hout⟩ := h.pool
  obtain ⟨f, hf, hbucket⟩ := @flushFrom_oneBucket highDescriptors (descriptor 2)
    (by decide) (Option.isSome_of_eq_some (highDescriptors_descriptor 2))
    { w.highmem with lastPkmapNr := 0 } 0 lastPkmap
  rw [← flushAllZeroPkmaps] at hf
  obtain ⟨hpage, hzero, hcount⟩ := flush_count hf
  have hwrap := @findUsable_wrap highDescriptors _ (fun _ => descriptor 2) 0
    (2 * lastPkmap - 1) (by rw [h.last]; exact hn) fun i h1 h2 => by
      rw [h.last] at h2
      omega
  have hsteps : 0 + (2 * lastPkmap - 1 + 1) = 2 * lastPkmap := by omega
  dsimp only at hpage hzero hcount
  have hf0 : f.pkmapCount 0 = 0 := by
    rw [hcount 0 (by omega), h.count]
    rfl
  have hf1 : f.pkmapCount 1 = 0 := by
    rw [hcount 1 hone, if_pos]
    rw [h.count, if_pos (by omega)]
  rw [hsteps, hf, Option.bind_some, if_pos hf0] at hwrap
  obtain ⟨more, hmore⟩ := hbucket.pool
  dsimp only at hmore
  rw [hpool, List.cons_append] at hmore
  have hmap := kmapHigh_found (fun _ => descriptor 2) (Option.isSome_of_eq_some hhigh)
    (pageAddress_zero (h.not_mapped (k := 512) (by rw [lastPkmap] at hn; omega))) hwrap
    (by rw [hzero]; decide) hmore.symm
  rw [hzero] at hmap
  have hperform := performHigh_kmap (fun _ => descriptor 2) hmap
  rw [h.out] at hperform
  refine ⟨_, hperform, ?_, ?_, ?_⟩
  · dsimp only
    rw [Function.update_of_ne (by omega), hf1]
  · dsimp only
    rw [Function.update_of_ne (by omega), hpage, h.page 1 le_rfl (by omega)]
  · obtain ⟨page, hp, hm, -⟩ := h.inv.slot 1 hone (by rw [h.count, if_pos (by omega)]; omega)
    rw [h.page 1 le_rfl (by omega), Option.some.injEq] at hp
    rw [← hp] at hm
    rw [← h.inv.pageAddress_eq hm]
    have hother : pageSlot (descriptor 1) ≠ pageSlot (descriptor 2) := by decide
    refine pageAddress_congr ?_ fun x hx => ?_
    · dsimp only
      rw [Function.update_of_ne (by decide)]
      exact hbucket.others _ hother
    · have hxp : x ≠ pam := by
        rintro rfl
        exact hout _ hx
      dsimp only
      rw [Function.update_of_ne hxp]
      exact hbucket.maps x fun hx' => hother (h.inv.buckets.unique x _ _ hx hx')

/-- Mapping one more page, and then the first page again, whose slot has count zero but whose entry
is still there. -/
theorem Filled.wrap {n : ℕ} {w : KmapWorld} (h : Filled n w) (hn : n + 1 = lastPkmap) :
    ∃ t u, performHigh w (.kmap (descriptor 512) fun _ => descriptor 2) = some t ∧
      t.out = [(descriptor 512, pkmapAddr 0)] ∧
      performHigh t (.kmap (descriptor 1) fun _ => descriptor 2) = some u ∧
      u.out = [(descriptor 1, pkmapAddr 1), (descriptor 512, pkmapAddr 0)] ∧
      u.highmem.pkmapCount 1 = 1 ∧ u.highmem.pkmapPage 1 = some (descriptor 1) := by
  obtain ⟨t, ht, hcount, hpage, haddress⟩ := h.wrapped hn
  have hone : 1 < lastPkmap := by decide
  have hb := pkmapAddr_bounds hone
  have hfits : toSigned 32 (0 + 1) = 1 := toSigned_of_lt (n := 1) (by omega) (by omega)
  have hagain : kmapHigh highDescriptors t (descriptor 1) (fun _ => descriptor 2) =
      some (pkmapAddr 1, { t with pkmapCount := Function.update t.pkmapCount 1 1 }) := by
    rw [kmapHigh, haddress, wrap_of_lt hb.2, if_neg (by omega), Option.bind_some]
    dsimp only
    rw [wrap_of_lt hb.2, addToCount_addr hone, Option.map_some, hcount, hfits]
  refine ⟨_, ⟨{ t with pkmapCount := Function.update t.pkmapCount 1 1 },
    [(descriptor 1, pkmapAddr 1), (descriptor 512, pkmapAddr 0)]⟩, ht, rfl,
    performHigh_kmap (fun _ => descriptor 2) hagain, rfl, ?_, hpage⟩
  dsimp only
  rw [Function.update_self]

/-- Map a page that flushes the ring, and the first page again. -/
def wrapAround : List KmapOp :=
  [.kmap (descriptor 512) fun _ => descriptor 2, .kmap (descriptor 1) fun _ => descriptor 2]

/-- Once the ring is filled, the first page gets a user whom its slot does not count. -/
theorem wrapAround_miscounts {n : ℕ} {ring : List KmapOp} (hn : n + 1 = lastPkmap)
    (hring : Admissible performHigh
        (fun w op => Legal highDescriptors w op ∧ FlushesRight highDescriptors w op)
        ⟨pageAddressInit, []⟩ ring ∧
      ∃ w, exec performHigh ⟨pageAddressInit, []⟩ ring = some w ∧ Filled n w) :
    Admissible performHigh (Legal highDescriptors) ⟨pageAddressInit, []⟩ (ring ++ wrapAround) ∧
      ∃ w, exec performHigh ⟨pageAddressInit, []⟩ (ring ++ wrapAround) = some w ∧
        w.highmem.pkmapCount 1 = 1 ∧ users w.out (descriptor 1) = 1 ∧ ¬ SlotsSound w := by
  obtain ⟨hadm, w, hw, hfilled⟩ := hring
  obtain ⟨t, u, ht, htout, hu, huout, hcount, hpage⟩ := hfilled.wrap hn
  have husers : users u.out (descriptor 1) = 1 := by
    rw [huout]
    decide
  refine ⟨(hadm.mono fun _ _ hok => hok.1).append fun w' hw' => ?_, u, ?_, hcount, husers,
    fun hs => ?_⟩
  · cases hw.symm.trans hw'
    refine ⟨legal_kmap (Option.isSome_of_eq_some (highDescriptors_descriptor 512))
      (by rw [hfilled.out]; decide), fun t' ht' => ?_⟩
    cases ht.symm.trans ht'
    exact ⟨legal_kmap (Option.isSome_of_eq_some (highDescriptors_descriptor 1))
      (by rw [htout]; decide), fun _ _ => trivial⟩
  · rw [exec_append, hw, Option.bind_some, wrapAround, exec, ht, Option.bind_some, exec, hu]
    rfl
  · rcases hs.count 1 (by decide) with h0 | ⟨page, hp, hc⟩
    · omega
    · rw [hpage, Option.some.injEq] at hp
      rw [← hp, husers] at hc
      omega

/-- Mapping and unmapping 511 pages, then one more, and then the first page again leaves a slot
with one user and a count of one instead of two. -/
theorem wrapRing_counterexample :
    Admissible performHigh (Legal highDescriptors) ⟨pageAddressInit, []⟩
        (fillRing 511 ++ wrapAround) ∧
      ∃ w, exec performHigh ⟨pageAddressInit, []⟩ (fillRing 511 ++ wrapAround) = some w ∧
        w.highmem.pkmapCount 1 = 1 ∧ users w.out (descriptor 1) = 1 ∧ ¬ SlotsSound w :=
  wrapAround_miscounts rfl (fillRing_filled (by decide))

end BiscuitOS.KmapHistory
