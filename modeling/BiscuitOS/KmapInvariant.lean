import BiscuitOS.PageAddressHistory
import BiscuitOS.KmapModel

/-!
# Slots, ptes and page addresses

The joint invariant of the counts, the ptes and the hash table, with the
addresses that `kmap` returned and that were not given back. Flushing a slot,
assigning it and counting a user up or down keep it.
-/

namespace BiscuitOS.KmapInvariant

open MachineWord ListTable KmapModel
open PageAddressModel (lastPkmap pageSlot PageAddressMap PageAddressTable)
open PageAddressHistory (places map_update places_add places_clear)

/-- Number of kmaps of a page that were not given back. -/
def users (out : List (ℕ × ℕ)) (page : ℕ) : ℕ := out.countP fun x => x.1 = page

/-- The table has an entry for the page with this address. -/
def Mapped (w : Highmem) (page virtual : ℕ) : Prop :=
  ∃ pam ∈ members w.pageAddressHtable, w.pageAddressMaps pam = ⟨page, virtual⟩

/-- The slots with count zero. -/
def usable (count : ℕ → ℤ) : Finset ℕ := (Finset.range lastPkmap).filter fun i => count i = 0

/-- Counts, ptes, page addresses and users agree. -/
structure PkmapInv (w : Highmem) (out : List (ℕ × ℕ)) : Prop where
  /-- No element is linked twice. -/
  separate : Separate (places w.toPageAddressTable)
  /-- Every entry is in the bucket of its page. -/
  placed : ∀ k, ∀ pam ∈ w.pageAddressHtable k, k = pageSlot (w.pageAddressMaps pam).page
  /-- A page has one entry. -/
  single : ∀ x ∈ members w.pageAddressHtable, ∀ y ∈ members w.pageAddressHtable,
    (w.pageAddressMaps x).page = (w.pageAddressMaps y).page → x = y
  /-- Every entry is the one of a slot that has a count and a pte of that page. -/
  owner : ∀ page virtual, Mapped w page virtual → ∃ i < lastPkmap, virtual = pkmapAddr i ∧
    w.pkmapCount i ≠ 0 ∧ w.pkmapPage i = some page
  /-- Every slot with a count has an entry, and one count more than users. -/
  slot : ∀ i < lastPkmap, w.pkmapCount i ≠ 0 → ∃ page, w.pkmapPage i = some page ∧
    Mapped w page (pkmapAddr i) ∧ w.pkmapCount i = 1 + users out page
  /-- The addresses in use are the ones in the table. -/
  mapped : ∀ x ∈ out, Mapped w x.1 x.2
  /-- The pool holds the entries that no slot uses. -/
  pool : w.pageAddressPool.length = (usable w.pkmapCount).card
  /-- The ring position is a slot. -/
  last : w.lastPkmapNr < lastPkmap
  /-- The counts fit. -/
  small : ∀ page, users out page + 1 < 2 ^ 31

variable {w : Highmem} {out : List (ℕ × ℕ)} {page virtual i : ℕ}

/-- Slot numbers and addresses. -/
theorem pkmapAddr_bounds (h : i < lastPkmap) : 0 < pkmapAddr i ∧ pkmapAddr i < 2 ^ 32 := by
  rw [lastPkmap] at h
  rw [pkmapAddr, pkmapBase]
  omega

/-- The slot of the address of a slot. -/
theorem pkmapNr_addr (h : i < lastPkmap) : pkmapNr (pkmapAddr i) = i := by
  have hb := pkmapAddr_bounds h
  rw [pkmapNr, wrapSub_of_le (by omega) (by rw [pkmapAddr]; omega), pkmapAddr,
    Nat.add_sub_cancel_left, Nat.mul_div_cancel _ (by omega)]

/-- Different slots have different addresses. -/
theorem pkmapAddr_inj {j : ℕ} (h : pkmapAddr i = pkmapAddr j) : i = j := by
  rw [pkmapAddr, pkmapAddr] at h
  omega

/-- Addresses are in the order of the slots. -/
theorem pkmapAddr_lt {j : ℕ} : pkmapAddr i < pkmapAddr j ↔ i < j := by
  rw [pkmapAddr, pkmapAddr]
  omega

/-- The buckets are lists of a separate table. -/
theorem PkmapInv.buckets (h : PkmapInv w out) : Separate w.pageAddressHtable where
  nodup k := h.separate.nodup (some k)
  unique x j k hj hk := Option.some.inj (h.separate.unique x (some j) (some k) hj hk)

/-- The entry of a page is in its bucket. -/
theorem PkmapInv.mem_bucket (h : PkmapInv w out) {pam : ℕ}
    (hpam : pam ∈ members w.pageAddressHtable) :
    pam ∈ w.pageAddressHtable (pageSlot (w.pageAddressMaps pam).page) := by
  obtain ⟨k, hk⟩ := mem_members.mp hpam
  rwa [← h.placed k pam hk]

/-- A page has one address. -/
theorem PkmapInv.unique (h : PkmapInv w out) {a b : ℕ} (ha : Mapped w page a)
    (hb : Mapped w page b) : a = b := by
  obtain ⟨x, hx, hxa⟩ := ha
  obtain ⟨y, hy, hyb⟩ := hb
  have hxy := h.single x hx y hy (by rw [hxa, hyb])
  rw [hxy, hyb, PageAddressMap.mk.injEq] at hxa
  exact hxa.2.symm

/-- `page_address` by the entry that it finds. -/
theorem pageAddress_find {pam : ℕ} (hf : (w.pageAddressHtable (pageSlot page)).find?
    (fun pam => (w.pageAddressMaps pam).page = page) = some pam) :
    pageAddress w page = (w.pageAddressMaps pam).virtual := by
  rw [pageAddress, PageAddressModel.pageAddress, hf, Option.elim_some]

/-- `page_address` of a mapped page. -/
theorem PkmapInv.pageAddress_eq (h : PkmapInv w out) (hm : Mapped w page virtual) :
    pageAddress w page = virtual := by
  obtain ⟨x, hx, hxa⟩ := hm
  have hin := h.mem_bucket hx
  rw [hxa] at hin
  cases hf : (w.pageAddressHtable (pageSlot page)).find?
      fun pam => (w.pageAddressMaps pam).page = page with
  | none =>
    exact absurd (decide_eq_true (by rw [hxa])) (List.find?_eq_none.mp hf x hin)
  | some pam =>
    have hp : (w.pageAddressMaps pam).page = page := by
      simpa only [decide_eq_true_eq] using List.find?_some hf
    have hpx := h.single pam (mem_members.mpr ⟨_, List.mem_of_find?_eq_some hf⟩) x hx
      (by rw [hp, hxa])
    rw [pageAddress_find hf, hpx, hxa]

/-- `page_address` of a page that is not mapped. -/
theorem pageAddress_zero (hm : ∀ a, ¬ Mapped w page a) : pageAddress w page = 0 := by
  cases hf : (w.pageAddressHtable (pageSlot page)).find?
      fun pam => (w.pageAddressMaps pam).page = page with
  | none => rw [pageAddress, PageAddressModel.pageAddress, hf, Option.elim_none]
  | some pam =>
    have hp : (w.pageAddressMaps pam).page = page := by
      simpa only [decide_eq_true_eq] using List.find?_some hf
    refine absurd ⟨pam, mem_members.mpr ⟨_, List.mem_of_find?_eq_some hf⟩, ?_⟩
      (hm (w.pageAddressMaps pam).virtual)
    rw [← hp]

/-- A slot with count zero has no entry. -/
theorem PkmapInv.not_mapped (h : PkmapInv w out) (h0 : w.pkmapCount i = 0) (page : ℕ) :
    ¬ Mapped w page (pkmapAddr i) := fun hm => by
  obtain ⟨j, -, hj, hcount, -⟩ := h.owner page _ hm
  rw [← pkmapAddr_inj hj] at hcount
  exact hcount h0

/-- The stray word is a page descriptor, and leads to the entry of slot `i`. -/
def StrayHits (pageHighMem : ℕ → Option Bool) (w : Highmem) (stray : ℕ → ℕ) (i : ℕ) : Prop :=
  stray i ≠ 0 ∧ (pageHighMem (stray i)).isSome ∧
    ((w.pageAddressHtable (pageSlot (stray i))).head?.map fun pam =>
      (w.pageAddressMaps pam).virtual) = some (pkmapAddr i)

/-- A usable slot more. -/
theorem usable_clear (count : ℕ → ℤ) (hi : i < lastPkmap) (hc : count i ≠ 0) :
    (usable (Function.update count i 0)).card = (usable count).card + 1 := by
  have he : usable (Function.update count i 0) = insert i (usable count) := by
    ext j
    simp only [usable, Finset.mem_filter, Finset.mem_range, Finset.mem_insert,
      Function.update_apply]
    by_cases hj : j = i
    · simp only [hj, hi, if_true, and_self, true_or]
    · simp only [hj, if_false, false_or]
  rw [he, Finset.card_insert_of_notMem]
  simp only [usable, Finset.mem_filter, not_and]
  exact fun _ => hc

/-- A usable slot less. -/
theorem usable_use {count : ℕ → ℤ} {c : ℤ} (hi : i < lastPkmap) (h0 : count i = 0) (hc : c ≠ 0) :
    (usable (Function.update count i c)).card + 1 = (usable count).card := by
  have h := usable_clear (Function.update count i c) hi
    (by rwa [Function.update_self])
  rw [Function.update_idem] at h
  rw [← h, ← h0, Function.update_eq_self]

/-- The slots that keep a count keep it. -/
theorem usable_keep {count : ℕ → ℤ} {c : ℤ} (h0 : count i ≠ 0) (hc : c ≠ 0) :
    usable (Function.update count i c) = usable count := by
  ext j
  simp only [usable, Finset.mem_filter, Function.update_apply]
  by_cases hj : j = i
  · simp only [hj, if_true, hc, h0]
  · simp only [hj, if_false]

/-- Someone uses a page that is in use. -/
theorem users_pos {x : ℕ × ℕ} (h : x ∈ out) : 0 < users out x.1 :=
  List.countP_pos_iff.mpr ⟨x, h, decide_eq_true rfl⟩

/-- The users after one more kmap. -/
theorem users_cons (x : ℕ × ℕ) (out : List (ℕ × ℕ)) (page : ℕ) :
    users (x :: out) page = users out page + if page = x.1 then 1 else 0 := by
  rw [users, List.countP_cons, users]
  by_cases h : page = x.1
  · rw [if_pos h, if_pos (decide_eq_true h.symm)]
  · rw [if_neg h, if_neg fun hd => h (of_decide_eq_true hd).symm]

/-- The entries after one was unlinked and its element changed. -/
theorem PkmapInv.mapped_unlink (h : PkmapInv w out) {pam : ℕ} (entry : PageAddressMap)
    (hpam : pam ∈ members w.pageAddressHtable) (q b : ℕ) :
    (∃ x ∈ members (unlink w.pageAddressHtable pam),
        Function.update w.pageAddressMaps pam entry x = ⟨q, b⟩) ↔
      Mapped w q b ∧ q ≠ (w.pageAddressMaps pam).page := by
  constructor
  · rintro ⟨x, hx, hxq⟩
    rw [h.buckets.members_unlink, Set.mem_sdiff, Set.mem_singleton_iff] at hx
    rw [Function.update_of_ne hx.2] at hxq
    refine ⟨⟨x, hx.1, hxq⟩, fun hq => hx.2 (h.single x hx.1 pam hpam ?_)⟩
    rw [hxq, hq]
  · rintro ⟨⟨x, hx, hxq⟩, hne⟩
    have hxp : x ≠ pam := fun he => hne (by rw [← he, hxq])
    refine ⟨x, ?_, by rw [Function.update_of_ne hxp, hxq]⟩
    rw [h.buckets.members_unlink, Set.mem_sdiff, Set.mem_singleton_iff]
    exact ⟨hx, hxp⟩

/-- Clearing a slot with count one and unlinking its entry, the first one of a bucket. -/
theorem PkmapInv.clear (h : PkmapInv w out) {pam bucket : ℕ} {rest : List ℕ}
    (entry : PageAddressMap) (hi : i < lastPkmap) (hc : w.pkmapCount i = 1)
    (hb : w.pageAddressHtable bucket = pam :: rest)
    (hv : (w.pageAddressMaps pam).virtual = pkmapAddr i) :
    PkmapInv { w with
      pkmapCount := Function.update w.pkmapCount i 0
      toPageAddressTable := ⟨Function.update w.pageAddressMaps pam entry,
        w.pageAddressPool ++ [pam], Function.update w.pageAddressHtable bucket rest⟩ } out := by
  have hin : pam ∈ w.pageAddressHtable bucket := hb ▸ List.mem_cons_self
  have hpam : pam ∈ members w.pageAddressHtable := mem_members.mpr ⟨_, hin⟩
  have hplaced := @places_clear _ _ _ _ (Function.update w.pageAddressMaps pam entry) h.separate hb
  have hmoved := h.separate.move (l := w.pageAddressPool ++ [pam]) (k := none) (j := some bucket) hin
    (Option.some_ne_none _).symm (List.perm_append_singleton _ _)
  have hmapped := h.mapped_unlink entry hpam
  rw [h.buckets.unlink_head hb] at hplaced ⊢
  have hown : Mapped w (w.pageAddressMaps pam).page (w.pageAddressMaps pam).virtual := ⟨pam, hpam, rfl⟩
  obtain ⟨i', -, hi', -, hpage⟩ := h.owner _ _ hown
  rw [hv] at hi'
  rw [← pkmapAddr_inj hi'] at hpage
  have hunused : users out (w.pageAddressMaps pam).page = 0 := by
    obtain ⟨q, hq, -, hcount⟩ := h.slot i hi (by omega)
    rw [hpage, Option.some.injEq] at hq
    rw [← hq] at hcount
    omega
  have hkept : ∀ k, ∀ x ∈ unlink w.pageAddressHtable pam k,
      x ∈ w.pageAddressHtable k ∧ Function.update w.pageAddressMaps pam entry x =
        w.pageAddressMaps x := fun k x hx => by
    obtain ⟨hne, hx⟩ := h.buckets.mem_unlink.mp hx
    exact ⟨hx, Function.update_of_ne hne _ _⟩
  exact
    { separate := by
        rw [hplaced]
        exact hmoved.1
      placed := fun k x hx => by
        obtain ⟨hx, hsame⟩ := hkept k x hx
        dsimp only
        rw [hsame]
        exact h.placed k x hx
      single := fun x hx y hy hxy => by
        obtain ⟨k, hx⟩ := mem_members.mp hx
        obtain ⟨l, hy⟩ := mem_members.mp hy
        obtain ⟨hx, hxs⟩ := hkept k x hx
        obtain ⟨hy, hys⟩ := hkept l y hy
        dsimp only at hxy
        rw [hxs, hys] at hxy
        exact h.single x (mem_members.mpr ⟨k, hx⟩) y (mem_members.mpr ⟨l, hy⟩) hxy
      owner := fun q b hq => by
        obtain ⟨hq, hne⟩ := (hmapped q b).mp hq
        obtain ⟨j, hj, rfl, hcount, hjpage⟩ := h.owner q b hq
        have hji : j ≠ i := by
          rintro rfl
          rw [hpage, Option.some.injEq] at hjpage
          exact hne hjpage.symm
        refine ⟨j, hj, rfl, ?_, hjpage⟩
        dsimp only
        rwa [Function.update_of_ne hji]
      slot := fun j hj hcount => by
        dsimp only at hcount ⊢
        have hji : j ≠ i := by
          rintro rfl
          rw [Function.update_self] at hcount
          exact hcount rfl
        rw [Function.update_of_ne hji] at hcount ⊢
        obtain ⟨q, hq, hqm, hcount⟩ := h.slot j hj hcount
        refine ⟨q, hq, (hmapped q _).mpr ⟨hqm, fun hqp => hji ?_⟩, hcount⟩
        rw [hqp] at hqm
        exact pkmapAddr_inj ((h.unique hqm hown).trans hv)
      mapped := fun x hx => by
        refine (hmapped x.1 x.2).mpr ⟨h.mapped x hx, fun hxp => ?_⟩
        have := users_pos hx
        rw [hxp, hunused] at this
        omega
      pool := by
        dsimp only
        rw [usable_clear _ hi (by omega), List.length_append, List.length_singleton, h.pool]
      last := h.last
      small := h.small }

section Flush

variable {pageHighMem : ℕ → Option Bool} {stray : ℕ → ℕ}

/-- The state after a slot is flushed: its count is zero, and its entry, the first one of a bucket, is
unlinked. -/
structure Flushed (w : Highmem) (out : List (ℕ × ℕ)) (t : Highmem) : Prop where
  /-- The invariant holds. -/
  inv : PkmapInv t out
  /-- Nothing new is mapped. -/
  mapped : ∀ page a, Mapped t page a → Mapped w page a
  /-- Buckets only lose entries. -/
  buckets : ∀ k, ((t.pageAddressHtable k).map t.pageAddressMaps).Sublist
    ((w.pageAddressHtable k).map w.pageAddressMaps)

/-- Flushing a slot whose entry the stray page hits. -/
theorem PkmapInv.flushSlot (h : PkmapInv w out) (hi : i < lastPkmap)
    (hhit : w.pkmapCount i = 1 → StrayHits pageHighMem w stray i) :
    ∃ t, flushSlot pageHighMem w stray i = some t ∧ Flushed w out t := by
  by_cases hc : w.pkmapCount i = 1
  swap
  · exact ⟨w, by rw [KmapModel.flushSlot, if_neg hc], h, fun _ _ hm => hm, fun _ => .refl _⟩
  obtain ⟨hz, hsome, hhead⟩ := hhit hc
  obtain ⟨high, hhigh⟩ := Option.isSome_iff_exists.mp hsome
  cases hb : w.pageAddressHtable (pageSlot (stray i)) with
  | nil =>
    rw [hb] at hhead
    cases hhead
  | cons pam rest =>
    rw [hb, List.head?_cons, Option.map_some, Option.some.injEq] at hhead
    have hpam : pam ∈ members w.pageAddressHtable :=
      mem_members.mpr ⟨_, hb ▸ List.mem_cons_self⟩
    refine ⟨_, ?_, h.clear { w.pageAddressMaps pam with page := stray i } hi hc hb hhead, ?_, ?_⟩
    · rw [KmapModel.flushSlot, if_pos hc, setPageAddress, hhigh, Option.bind_some,
        PageAddressModel.setPageAddress_clear hz hb, Option.map_some]
    · intro page a hm
      rw [Mapped] at hm
      dsimp only at hm
      rw [h.buckets.unlink_head hb] at hm
      exact ((h.mapped_unlink _ hpam page a).mp hm).1
    · intro k
      have hout : ∀ l, pam ∉ unlink w.pageAddressHtable pam l := fun l hl =>
        (h.buckets.mem_unlink.mp hl).1 rfl
      dsimp only
      rw [h.buckets.unlink_head hb, map_update (hout k), unlink]
      exact List.erase_sublist.map _

/-- What flushing a slot leaves alone, whatever the stray page is. -/
theorem flushSlot_keeps {t : Highmem} (ht : flushSlot pageHighMem w stray i = some t) :
    t.pkmapPage = w.pkmapPage ∧ t.lastPkmapNr = w.lastPkmapNr ∧
      t.pkmapCount =
        if w.pkmapCount i = 1 then Function.update w.pkmapCount i 0 else w.pkmapCount := by
  rw [KmapModel.flushSlot] at ht
  by_cases hc : w.pkmapCount i = 1
  · rw [if_pos hc, setPageAddress] at ht
    obtain ⟨-, -, ht⟩ := Option.bind_eq_some_iff.mp ht
    obtain ⟨table, -, rfl⟩ := Option.map_eq_some_iff.mp ht
    rw [if_pos hc]
    exact ⟨rfl, rfl, rfl⟩
  · rw [if_neg hc, Option.some.injEq] at ht
    rw [if_neg hc, ht]
    exact ⟨rfl, rfl, rfl⟩

/-- The stray pages hit the entry of every slot that the loop flushes. -/
def FlushHits (pageHighMem : ℕ → Option Bool) (w : Highmem) (stray : ℕ → ℕ) (i : ℕ) : ℕ → Prop
  | 0 => True
  | n + 1 => (w.pkmapCount i = 1 → StrayHits pageHighMem w stray i) ∧
      ∀ t ∈ KmapModel.flushSlot pageHighMem w stray i, FlushHits pageHighMem t stray (i + 1) n

/-- The loop of `flush_all_zero_pkmaps` clears the slots with count one and no others. -/
theorem flushFrom_count {n : ℕ} {t : Highmem} (ht : flushFrom pageHighMem w stray i n = some t) :
    t.pkmapPage = w.pkmapPage ∧ t.lastPkmapNr = w.lastPkmapNr ∧
      ∀ j, t.pkmapCount j =
        if i ≤ j ∧ j < i + n ∧ w.pkmapCount j = 1 then 0 else w.pkmapCount j := by
  induction n generalizing w i with
  | zero =>
    rw [flushFrom, Option.some.injEq] at ht
    subst ht
    refine ⟨rfl, rfl, fun j => ?_⟩
    rw [if_neg (by omega)]
  | succ n ih =>
    rw [flushFrom] at ht
    obtain ⟨u, hu, ht⟩ := Option.bind_eq_some_iff.mp ht
    obtain ⟨hpage, hlast, hcount⟩ := flushSlot_keeps hu
    obtain ⟨hpage', hlast', hcount'⟩ := ih ht
    refine ⟨hpage'.trans hpage, hlast'.trans hlast, fun j => ?_⟩
    have hslot : u.pkmapCount j =
        if j = i ∧ w.pkmapCount i = 1 then 0 else w.pkmapCount j := by
      rw [hcount]
      by_cases hc : w.pkmapCount i = 1
      · rw [if_pos hc, Function.update_apply]
        simp only [hc, and_true]
      · rw [if_neg hc, if_neg fun h => hc h.2]
    rw [hcount', hslot]
    by_cases hj : j = i
    · subst hj
      by_cases hc : w.pkmapCount j = 1
      · rw [if_neg (by omega), if_pos ⟨rfl, hc⟩, if_pos ⟨le_rfl, by omega, hc⟩]
      · rw [if_neg (by omega), if_neg fun h => hc h.2, if_neg fun h => hc h.2.2]
    · rw [if_neg fun h : j = i ∧ _ => hj h.1]
      have hiff : (i + 1 ≤ j ∧ j < i + 1 + n ∧ w.pkmapCount j = 1) ↔
          (i ≤ j ∧ j < i + (n + 1) ∧ w.pkmapCount j = 1) := by omega
      simp only [hiff]

/-- The loop of `flush_all_zero_pkmaps` returns, keeps the invariant and maps nothing new where the
stray pages hit. -/
theorem PkmapInv.flushFrom {n : ℕ} (h : PkmapInv w out) (hin : i + n ≤ lastPkmap)
    (hhits : FlushHits pageHighMem w stray i n) :
    ∃ t, flushFrom pageHighMem w stray i n = some t ∧ PkmapInv t out ∧
      ∀ page a, Mapped t page a → Mapped w page a := by
  induction n generalizing w i with
  | zero => exact ⟨w, rfl, h, fun _ _ hm => hm⟩
  | succ n ih =>
    obtain ⟨u, hu, hflushed⟩ := h.flushSlot (by omega) hhits.1
    obtain ⟨t, ht, hinv, hmapped⟩ := ih hflushed.inv (by omega) (hhits.2 u hu)
    refine ⟨t, ?_, hinv, fun page a hm => hflushed.mapped page a (hmapped page a hm)⟩
    rw [KmapModel.flushFrom, hu, Option.bind_some, ht]

/-- `flush_all_zero_pkmaps` clears the slots with count one and no others. -/
theorem flush_count {t : Highmem} (ht : flushAllZeroPkmaps pageHighMem w stray = some t) :
    t.pkmapPage = w.pkmapPage ∧ t.lastPkmapNr = w.lastPkmapNr ∧
      ∀ j < lastPkmap, t.pkmapCount j = if w.pkmapCount j = 1 then 0 else w.pkmapCount j := by
  obtain ⟨hpage, hlast, hcount⟩ := flushFrom_count ht
  refine ⟨hpage, hlast, fun j hj => ?_⟩
  have hiff : (0 ≤ j ∧ j < 0 + lastPkmap ∧ w.pkmapCount j = 1) ↔ w.pkmapCount j = 1 := by omega
  simp only [hcount, hiff]

end Flush

/-- Every slot is in use by another page once none has a count below two. -/
theorem PkmapInv.exists_idle (h : PkmapInv w out)
    (hfew : (out.map Prod.fst).toFinset.card < lastPkmap) :
    ∃ i < lastPkmap, w.pkmapCount i = 0 ∨ w.pkmapCount i = 1 := by
  by_contra hall
  have hbusy : ∀ i : Fin lastPkmap, ∃ page, Mapped w page (pkmapAddr i) ∧
      page ∈ (out.map Prod.fst).toFinset := fun i => by
    have hi : ¬ (w.pkmapCount i = 0 ∨ w.pkmapCount i = 1) := fun hc => hall ⟨i, i.isLt, hc⟩
    rw [not_or] at hi
    obtain ⟨page, -, hm, hcount⟩ := h.slot i i.isLt hi.1
    refine ⟨page, hm, ?_⟩
    have hpos : 0 < users out page := by omega
    obtain ⟨x, hx, hxp⟩ := List.countP_pos_iff.mp hpos
    exact List.mem_toFinset.mpr (List.mem_map.mpr ⟨x, hx, of_decide_eq_true hxp⟩)
  choose page hmapped hmem using hbusy
  have hinj : Function.Injective page := fun i j he => by
    have ha := hmapped i
    rw [he] at ha
    exact Fin.ext (pkmapAddr_inj (h.unique ha (hmapped j)))
  have hcard := Finset.card_le_card_of_injOn page (s := Finset.univ)
    (fun i _ => hmem i) hinj.injOn
  rw [Finset.card_univ, Fintype.card_fin] at hcard
  omega

/-- The entries after one was linked. -/
theorem mapped_link {pam : ℕ} (hpam : pam ∉ members w.pageAddressHtable) (q b : ℕ) :
    (∃ x ∈ members (Function.update w.pageAddressHtable (pageSlot page)
        (w.pageAddressHtable (pageSlot page) ++ [pam])),
        Function.update w.pageAddressMaps pam ⟨page, virtual⟩ x = ⟨q, b⟩) ↔
      (q = page ∧ b = virtual) ∨ Mapped w q b := by
  rw [members_link (List.perm_append_singleton pam (w.pageAddressHtable (pageSlot page)))]
  constructor
  · rintro ⟨x, rfl | hx, hxq⟩
    · rw [Function.update_self, PageAddressMap.mk.injEq] at hxq
      exact Or.inl ⟨hxq.1.symm, hxq.2.symm⟩
    · rw [Function.update_of_ne (ne_of_mem_of_not_mem hx hpam)] at hxq
      exact Or.inr ⟨x, hx, hxq⟩
  · rintro (⟨rfl, rfl⟩ | ⟨x, hx, hxq⟩)
    · exact ⟨pam, Set.mem_insert _ _, Function.update_self _ _ _⟩
    · refine ⟨x, Set.mem_insert_of_mem _ hx, ?_⟩
      rw [Function.update_of_ne (ne_of_mem_of_not_mem hx hpam), hxq]

/-- Assigning the slot at the ring position to a page that has no address. -/
theorem PkmapInv.assign (h : PkmapInv w out) (h0 : w.pkmapCount w.lastPkmapNr = 0)
    (hnew : ∀ a, ¬ Mapped w page a) {pam : ℕ} {pool : List ℕ} (hp : w.pageAddressPool = pam :: pool) :
    PkmapInv { w with
      pkmapPage := Function.update w.pkmapPage w.lastPkmapNr (some page)
      pkmapCount := Function.update w.pkmapCount w.lastPkmapNr 2
      toPageAddressTable :=
        ⟨Function.update w.pageAddressMaps pam ⟨page, pkmapAddr w.lastPkmapNr⟩, pool,
          Function.update w.pageAddressHtable (pageSlot page)
            (w.pageAddressHtable (pageSlot page) ++ [pam])⟩ }
      ((page, pkmapAddr w.lastPkmapNr) :: out) := by
  have hunused : users out page = 0 := by
    by_contra hpos
    obtain ⟨x, hx, hxp⟩ := List.countP_pos_iff.mp (Nat.pos_of_ne_zero hpos)
    have hm := h.mapped x hx
    rw [of_decide_eq_true hxp] at hm
    exact hnew _ hm
  have hin : pam ∈ places w.toPageAddressTable none := by
    rw [places, Option.elim_none, hp]
    exact List.mem_cons_self
  have hout : ∀ k, pam ∉ w.pageAddressHtable k := fun k hk =>
    Option.some_ne_none k (h.separate.unique pam (some k) none hk hin)
  have hpam : pam ∉ members w.pageAddressHtable := fun hm => by
    obtain ⟨k, hk⟩ := mem_members.mp hm
    exact hout k hk
  have hperm := List.perm_append_singleton pam (w.pageAddressHtable (pageSlot page))
  have hplaced := @places_add _ _ (pageSlot page) _ (Function.update w.pageAddressMaps pam
    ⟨page, pkmapAddr w.lastPkmapNr⟩) h.separate hp
  have hmoved := h.separate.move (l := w.pageAddressHtable (pageSlot page) ++ [pam])
    (k := some (pageSlot page)) (j := none) hin (Option.some_ne_none _) hperm
  have hmapped := @mapped_link _ page (pkmapAddr w.lastPkmapNr) _ hpam
  have hfree : ∀ q b, Mapped w q b → b ≠ pkmapAddr w.lastPkmapNr := fun q b hm hb => by
    obtain ⟨j, hj, hbj, hcount, -⟩ := h.owner q b hm
    rw [← pkmapAddr_inj (hb.symm.trans hbj)] at hcount
    exact hcount h0
  have hfresh : ∀ x ∈ members w.pageAddressHtable, (w.pageAddressMaps x).page ≠ page :=
    fun x hx he => hnew (w.pageAddressMaps x).virtual ⟨x, hx, by rw [← he]⟩
  have husers : ∀ q, users ((page, pkmapAddr w.lastPkmapNr) :: out) q =
      users out q + if q = page then 1 else 0 := fun q => users_cons _ _ q
  exact
    { separate := by
        rw [hplaced]
        exact hmoved.1
      placed := fun k x hx => by
        dsimp only
        rcases (mem_link hperm).mp hx with ⟨rfl, rfl⟩ | hk
        · rw [Function.update_self]
        · rw [Function.update_of_ne (ne_of_mem_of_not_mem hk (hout k))]
          exact h.placed k x hk
      single := fun x hx y hy hxy => by
        dsimp only at hx hy hxy
        rw [members_link hperm] at hx hy
        rcases hx with rfl | hx
        · rcases hy with rfl | hy
          · rfl
          · rw [Function.update_self, Function.update_of_ne (ne_of_mem_of_not_mem hy hpam)] at hxy
            exact absurd hxy.symm (hfresh y hy)
        · rcases hy with rfl | hy
          · rw [Function.update_self, Function.update_of_ne (ne_of_mem_of_not_mem hx hpam)] at hxy
            exact absurd hxy (hfresh x hx)
          · rw [Function.update_of_ne (ne_of_mem_of_not_mem hx hpam),
              Function.update_of_ne (ne_of_mem_of_not_mem hy hpam)] at hxy
            exact h.single x hx y hy hxy
      owner := fun q b hq => by
        dsimp only
        rcases (hmapped q b).mp hq with ⟨rfl, rfl⟩ | hq
        · refine ⟨_, h.last, rfl, ?_, ?_⟩
          · rw [Function.update_self]
            omega
          · rw [Function.update_self]
        · obtain ⟨j, hj, rfl, hcount, hjpage⟩ := h.owner q b hq
          have hne : j ≠ w.lastPkmapNr := fun he => hcount (he ▸ h0)
          refine ⟨j, hj, rfl, ?_, ?_⟩
          · rwa [Function.update_of_ne hne]
          · rwa [Function.update_of_ne hne]
      slot := fun j hj hcount => by
        dsimp only at hcount ⊢
        by_cases hjl : j = w.lastPkmapNr
        · subst hjl
          refine ⟨page, by rw [Function.update_self], (hmapped _ _).mpr (Or.inl ⟨rfl, rfl⟩), ?_⟩
          rw [Function.update_self, husers, hunused, if_pos rfl]
          rfl
        · rw [Function.update_of_ne hjl] at hcount ⊢
          obtain ⟨q, hq, hqm, hcount⟩ := h.slot j hj hcount
          have hqp : q ≠ page := fun he => hnew _ (he ▸ hqm)
          refine ⟨q, hq, (hmapped _ _).mpr (Or.inr hqm), ?_⟩
          rw [Function.update_of_ne hjl, husers, if_neg hqp, hcount, Nat.add_zero]
      mapped := fun x hx => by
        refine (hmapped x.1 x.2).mpr ?_
        rcases List.mem_cons.mp hx with rfl | hx
        · exact Or.inl ⟨rfl, rfl⟩
        · exact Or.inr (h.mapped x hx)
      pool := by
        dsimp only
        have hused := usable_use (c := 2) h.last h0 (by omega)
        have hlen := h.pool
        rw [hp, List.length_cons] at hlen
        omega
      last := h.last
      small := fun q => by
        rw [husers]
        split
        · rename_i hq
          rw [hq, hunused]
          omega
        · exact h.small q }

/-- Counting the users of a mapped page. -/
theorem PkmapInv.recount (h : PkmapInv w out) {out' : List (ℕ × ℕ)} (hi : i < lastPkmap)
    (hm : Mapped w page (pkmapAddr i)) (hother : ∀ q, q ≠ page → users out' q = users out q)
    (hmapped : ∀ x ∈ out', Mapped w x.1 x.2) (hsmall : users out' page + 1 < 2 ^ 31) :
    PkmapInv { w with
      pkmapCount := Function.update w.pkmapCount i (1 + users out' page) } out' := by
  obtain ⟨i', -, hi', hcount, hpage⟩ := h.owner page _ hm
  rw [← pkmapAddr_inj hi'] at hcount hpage
  exact
    { separate := h.separate
      placed := h.placed
      single := h.single
      owner := fun q b hq => by
        obtain ⟨j, hj, rfl, hjc, hjpage⟩ := h.owner q b hq
        refine ⟨j, hj, rfl, ?_, hjpage⟩
        dsimp only
        rw [Function.update_apply]
        split
        · omega
        · exact hjc
      slot := fun j hj hjc => by
        dsimp only at hjc ⊢
        rw [Function.update_apply]
        split
        · rename_i hji
          subst hji
          exact ⟨page, hpage, hm, rfl⟩
        · rename_i hji
          rw [Function.update_of_ne hji] at hjc
          obtain ⟨q, hq, hqm, hjc⟩ := h.slot j hj hjc
          have hqp : q ≠ page := fun he =>
            hji (pkmapAddr_inj (h.unique (he ▸ hqm) hm))
          exact ⟨q, hq, hqm, by rw [hother q hqp, hjc]⟩
      mapped := hmapped
      pool := by
        dsimp only
        rw [usable_keep hcount (by omega), h.pool]
      last := h.last
      small := fun q => by
        by_cases hq : q = page
        · rwa [hq]
        · rw [hother q hq]
          exact h.small q }

end BiscuitOS.KmapInvariant
