import BiscuitOS.BuddyHistory

/-!
# Where a freed block is queued

`__free_one_page` puts the block it ends with at the tail of its list when the
buddy of the combined block is free. That buddy is sought from the page of the
block, not from the page of the combined block, which is the same page exactly
when the block is the lower half of its pair.
-/

namespace BiscuitOS.BuddyPlacement

open PageModel BuddyModel DyadicBlock BuddyInvariant BuddyBlock BuddyHistory

/-- First page of the aligned block of order `k` that contains a page. -/
def blockStart (p k : ℕ) : ℕ := p / 2 ^ k * 2 ^ k

/-- Merging from order `o` on ends at order `k`, by the lists before the call. -/
structure StopsAt (z : Zone) (p o k : ℕ) : Prop where
  order_le : o ≤ k
  order_top : k ≤ pageblockOrder
  /-- Below `k` the other half is free. -/
  merged : ∀ j, o ≤ j → j < k → (buddy (blockStart p j) j, j) ∈ blocks z
  /-- At `k` it is not. -/
  nobuddy : k < pageblockOrder → (buddy (blockStart p k) k, k) ∉ blocks z

/-- Where `__free_one_page` stands when it chooses an end of the list. -/
def ending (z : Zone) (p o : ℕ) : Merged :=
  let m := mergeLoop z p (p % 2 ^ maxOrder) o (maxOrder - 1 - o)
  { m with zone := setPageOrder m.zone m.page m.order }

/-- `higher_page`: the page whose zone the test compares with. -/
def higherPage (m : Merged) : ℕ :=
  let combinedIdx := findBuddyIndex m.pageIdx m.order &&& m.pageIdx
  m.page + combinedIdx - m.pageIdx

/-- `higher_buddy`: the page whose descriptor the test reads as the buddy of the combined
block. -/
def higherBuddy (m : Merged) : ℕ :=
  let combinedIdx := findBuddyIndex m.pageIdx m.order &&& m.pageIdx
  m.page + findBuddyIndex combinedIdx (m.order + 1) - combinedIdx

/-- First page of the block that would merge with the combined block. -/
def neighbour (p k : ℕ) : ℕ := buddy (blockStart p (k + 1)) (k + 1)

/-- The block is queued at the tail exactly when the neighbour of the combined block is free,
and the descriptor read for that is the one of the neighbour. -/
structure TailPlaced (z : Zone) (p o k : ℕ) : Prop where
  tail : queuesAtTail (ending z p o) = true ↔ (neighbour p k, k + 1) ∈ blocks z
  examined : higherBuddy (ending z p o) = neighbour p k

variable {z : Zone} {p o k j t id n : ℕ} {debt : ℕ → ℤ}

/-- The test is one call of `page_is_buddy`. -/
theorem queuesAtTail_eq (m : Merged) : queuesAtTail m = (m.order < maxOrder - 2 &&
    m.zone.pfnValid (m.page + findBuddyIndex m.pageIdx m.order - m.pageIdx) &&
    pageIsBuddy m.zone (higherPage m) (higherBuddy m) (m.order + 1)) := rfl

/-- An aligned page starts its block. -/
theorem blockStart_self (h : 2 ^ k ∣ p) : blockStart p k = p := Nat.div_mul_cancel h

/-- Blocks start at a multiple of their size. -/
theorem blockStart_dvd (p k : ℕ) : 2 ^ k ∣ blockStart p k := Nat.dvd_mul_left _ _

/-- The block of a larger order depends only on the block of a smaller one. -/
theorem blockStart_blockStart (p : ℕ) (h : k ≤ j) : blockStart (blockStart p k) j = blockStart p j := by
  obtain ⟨d, rfl⟩ := Nat.exists_eq_add_of_le h
  rw [blockStart, blockStart, blockStart, pow_add, ← Nat.div_div_eq_div_mul,
    Nat.mul_div_cancel _ (Nat.two_pow_pos k), Nat.div_div_eq_div_mul]

/-- The pair of a block is the block of the next order. -/
theorem parent_blockStart (p k : ℕ) : parent (blockStart p k) k = blockStart p (k + 1) := by
  rw [← blockStart_blockStart p (Nat.le_succ k)]
  rcases buddy_cases (blockStart_dvd p k) with ⟨hd, -, hp⟩ | ⟨hle, hd, -, hp⟩
  · rw [hp, blockStart_self hd]
  · obtain ⟨m, hm⟩ := hd
    have hpos : 2 ^ k < 2 ^ (k + 1) := Nat.pow_lt_pow_right (by decide) (Nat.lt_succ_self k)
    have hs : blockStart p k = 2 ^ k + 2 ^ (k + 1) * m := by omega
    rw [hp, hs, blockStart, Nat.add_mul_div_left _ _ (Nat.two_pow_pos _), Nat.div_eq_of_lt hpos,
      Nat.zero_add, Nat.add_sub_cancel_left, Nat.mul_comm]

/-- A block starts its pair, or in its middle, by one bit of the page. -/
theorem blockStart_split (p k : ℕ) :
    blockStart p k = blockStart p (k + 1) + p / 2 ^ k % 2 * 2 ^ k := by
  have hsucc : blockStart p (k + 1) = p / 2 ^ k / 2 * 2 * 2 ^ k := by
    rw [blockStart, pow_succ, ← Nat.div_div_eq_div_mul, Nat.mul_assoc, Nat.mul_comm 2]
  rw [hsucc, ← Nat.add_mul, Nat.div_add_mod', blockStart]

/-- The lower half of the pair. -/
theorem lower_iff (p k : ℕ) : blockStart p (k + 1) = blockStart p k ↔ p / 2 ^ k % 2 = 0 := by
  have hsplit := blockStart_split p k
  have hpos := Nat.two_pow_pos k
  constructor
  · intro he
    have hz : p / 2 ^ k % 2 * 2 ^ k = 0 := by omega
    exact (Nat.mul_eq_zero.mp hz).resolve_right hpos.ne'
  · intro hz
    rw [hsplit, hz, Nat.zero_mul]
    rfl

/-- The neighbour of the combined block starts at a multiple of its size. -/
theorem neighbour_dvd (p k : ℕ) : 2 ^ (k + 1) ∣ neighbour p k := by
  rcases buddy_cases (blockStart_dvd p (k + 1)) with ⟨-, hb, -⟩ | ⟨-, -, hb, -⟩
  · rw [neighbour, hb]
    exact Nat.dvd_add (blockStart_dvd p (k + 1)) (Nat.dvd_refl _)
  · rw [neighbour, hb]
    exact Nat.dvd_sub (blockStart_dvd p (k + 1)) (Nat.dvd_refl _)

/-- Two orders cannot both be where merging ends. -/
theorem StopsAt.unique (h : StopsAt z p o k) (h' : StopsAt z p o j) : k = j := by
  rcases lt_trichotomy k j with hlt | he | hlt
  · exact absurd (h'.merged k h.order_le hlt) (h.nobuddy (hlt.trans_le h'.order_top))
  · exact he
  · exact absurd (h.merged j h'.order_le hlt) (h'.nobuddy (hlt.trans_le h.order_top))

/-- Where the merge loop leaves off, by the lists before it. -/
structure EndsAt (z : Zone) (p o : ℕ) (m : Merged) : Prop where
  stops : StopsAt z p o m.order
  page : m.page = blockStart p m.order
  pageIdx : m.pageIdx = m.page % 2 ^ maxOrder
  lists : ∀ j, m.order ≤ j → m.zone.freeList j = z.freeList j
  valid : m.zone.pfnValid = z.pfnValid

/-- Taking a block off its list leaves the lists of the other orders alone. -/
theorem freeList_take (h : FreeLists id debt z) (hm : (p, o) ∈ blocks z) (hne : j ≠ o) (v : ℤ) :
    (rmvPageOrder (addNrFree (listDel z p) o v) p).freeList j = z.freeList j := by
  funext u
  obtain ⟨t, ht⟩ := mem_blocks.mp hm
  exact List.erase_of_not_mem fun hu => hne (h.mem_unique ht hu).1

/-- A block whose other half is not free stays as it is. -/
theorem endsAt_here (h : Detached id debt z p o)
    (hnb : o < pageblockOrder → (buddy p o, o) ∉ blocks z) :
    EndsAt z p o ⟨z, p, p % 2 ^ maxOrder, o⟩ := by
  have hstart := blockStart_self h.aligned
  refine ⟨⟨le_rfl, h.order_le, ?_, ?_⟩, hstart.symm, rfl, fun _ _ => rfl, rfl⟩
  · exact fun j hj hlt => absurd hj hlt.not_ge
  · rwa [hstart]

/-- The merge loop climbs while the other half is free. -/
theorem mergeLoop_ends (n : ℕ) : ∀ {z : Zone} {p o : ℕ}, Detached id debt z p o →
    o + n = pageblockOrder → EndsAt z p o (mergeLoop z p (p % 2 ^ maxOrder) o n) := by
  induction n with
  | zero =>
    intro z p o h hn
    exact endsAt_here h fun hlt => absurd hlt (by omega)
  | succ n ih =>
    intro z p o h hn
    have ho : o < pageblockOrder := by omega
    obtain ⟨hbuddy, hparent, hidx⟩ := index_eq h.aligned (lt_maxOrder ho.le)
    have hiff := h.lists.pageIsBuddy_iff (q := buddy p o) (o := o) (h.inside (mem_span_self p o))
    have hq : p + findBuddyIndex (p % 2 ^ maxOrder) o - p % 2 ^ maxOrder = buddy p o := hbuddy
    have hc : findBuddyIndex (p % 2 ^ maxOrder) o &&& p % 2 ^ maxOrder =
        parent p o % 2 ^ maxOrder := hidx
    have hp : p + parent p o % 2 ^ maxOrder - p % 2 ^ maxOrder = parent p o := by
      rw [← hidx]
      exact hparent
    have hstart := blockStart_self h.aligned
    simp only [mergeLoop, hq, hc, hp]
    by_cases hm : (buddy p o, o) ∈ blocks z
    · rw [if_pos (hiff.mpr hm)]
      have hlists := fun j (hj : o + 1 ≤ j) => freeList_take h.lists hm (j := j) (by omega) (-1)
      have hends := ih (h.merge ho hm) (by omega)
      have hround : rmvPageOrder (addNrFree (listDel z (buddy p o)) o (-1)) (buddy p o) =
          addNrFree (rmvPageOrder (listDel z (buddy p o)) (buddy p o)) o (-1) := rfl
      rw [hround] at hlists ⊢
      generalize mergeLoop _ (parent p o) _ (o + 1) n = m at hends
      have hup : ∀ j, o + 1 ≤ j → blockStart (parent p o) j = blockStart p j := fun j hj => by
        have hpar := parent_blockStart p o
        rw [hstart] at hpar
        rw [hpar, blockStart_blockStart p hj]
      have hblocks : ∀ q j, o + 1 ≤ j → ((q, j) ∈ blocks
          (addNrFree (rmvPageOrder (listDel z (buddy p o)) (buddy p o)) o (-1)) ↔
          (q, j) ∈ blocks z) := fun q j hj => by
        rw [mem_blocks, mem_blocks, hlists j hj]
      have hle := hends.stops.order_le
      refine ⟨⟨by omega, hends.stops.order_top, ?_, ?_⟩, ?_, hends.pageIdx, ?_, hends.valid⟩
      · intro j hj hlt
        rcases Nat.eq_or_lt_of_le hj with rfl | hj
        · rw [hstart]
          exact hm
        · rw [← hup j hj, ← hblocks _ j hj]
          exact hends.stops.merged j hj hlt
      · intro hlt
        rw [← hup _ hle, ← hblocks _ _ hle]
        exact hends.stops.nobuddy hlt
      · rw [hends.page, hup _ hle]
      · intro j hj
        rw [hends.lists j hj, hlists j (hle.trans hj)]
    · rw [if_neg (fun hb => hm (hiff.mp hb))]
      exact endsAt_here h fun _ => hm

/-- Where the call stands when it chooses an end of the list. -/
theorem ending_ends (h : Detached id debt z p o) :
    EndsAt z p o (mergeLoop z p (p % 2 ^ maxOrder) o (maxOrder - 1 - o)) :=
  mergeLoop_ends _ h (Nat.add_sub_cancel' h.order_le)

/-- The three pages the test reaches by their indices. -/
theorem higher_eq (m : Merged) (hal : 2 ^ m.order ∣ m.page)
    (hidx : m.pageIdx = m.page % 2 ^ maxOrder) (hlt : m.order < maxOrder - 2) :
    m.page + findBuddyIndex m.pageIdx m.order - m.pageIdx = buddy m.page m.order ∧
      higherPage m = parent m.page m.order ∧
      higherBuddy m = buddy (parent m.page m.order) (m.order + 1) +
        (m.page - parent m.page m.order) := by
  have hlow : m.order < maxOrder := by
    rw [maxOrder] at hlt ⊢
    omega
  have hhigh : m.order + 1 < maxOrder := by
    rw [maxOrder] at hlt ⊢
    omega
  obtain ⟨hbuddy, hpage, hpar⟩ := index_eq hal hlow
  obtain ⟨hup, -, -⟩ := index_eq (parent_dvd hal) hhigh
  have hc : findBuddyIndex m.pageIdx m.order &&& m.pageIdx =
      parent m.page m.order % 2 ^ maxOrder := by
    rw [hidx]
    exact hpar
  have hle : parent m.page m.order ≤ m.page := Nat.and_le_right
  have hmod : parent m.page m.order % 2 ^ maxOrder ≤ parent m.page m.order := Nat.mod_le _ _
  refine ⟨?_, ?_, ?_⟩
  · rw [hidx]
    exact hbuddy
  · simp only [higherPage, hc]
    rw [hidx, ← hpar]
    exact hpage
  · have hb : findBuddyIndex (parent m.page m.order % 2 ^ maxOrder) (m.order + 1) =
        buddy (parent m.page m.order % 2 ^ maxOrder) (m.order + 1) := rfl
    simp only [higherBuddy, hc, hb]
    rw [← hup]
    omega

/-- No block is its own buddy. -/
theorem buddy_ne (p k : ℕ) : buddy p k ≠ p := fun h => by
  have hz : 2 ^ k = 0 := Nat.xor_right_inj.mp (h.trans (Nat.xor_zero p).symm)
  exact (Nat.two_pow_pos k).ne' hz

/-- Marking the block does not change the test of another page. -/
theorem pageIsBuddy_setPageOrder (z : Zone) (p k : ℕ) {q a j : ℕ} (hq : q ≠ p) :
    pageIsBuddy (setPageOrder z p k) a q j = pageIsBuddy z a q j := by
  have hid : pageZoneId ((setPageOrder z p k).pages a) = pageZoneId (z.pages a) :=
    (moves_setPage z p k (-2)).pageZoneId_eq a
  have hsame : (setPageOrder z p k).pages q = z.pages q := setPage_other _ hq _
  have hvalid : (setPageOrder z p k).pfnValid = z.pfnValid := rfl
  rw [pageIsBuddy, pageIsBuddy, hid, hsame, hvalid]

/-- The block that is queued, and the list it is queued on. -/
theorem freeOnePage_queues (h : Detached id debt z p o) (hk : StopsAt z p o k) (t : ℕ) :
    (freeOnePage z p o t).freeList k t = if queuesAtTail (ending z p o)
      then z.freeList k t ++ [blockStart p k] else blockStart p k :: z.freeList k t := by
  have hm := ending_ends h
  have horder : (ending z p o).order = k := hm.stops.unique hk
  have hpage : (ending z p o).page = blockStart p k := by
    rw [← horder]
    exact hm.page
  have hlist : (ending z p o).zone.freeList k t = z.freeList k t := by
    rw [← horder]
    exact congrFun (hm.lists _ le_rfl) t
  have hf : freeOnePage z p o t = addNrFree (if queuesAtTail (ending z p o)
      then listAddTail (ending z p o).zone (ending z p o).page (ending z p o).order t
      else listAdd (ending z p o).zone (ending z p o).page (ending z p o).order t)
      (ending z p o).order 1 := rfl
  rw [hf, horder, hpage]
  by_cases hq : queuesAtTail (ending z p o) = true
  · rw [if_pos hq, if_pos hq]
    simp only [addNrFree, listAddTail, setList, Function.update_self, hlist]
  · rw [if_neg hq, if_neg hq]
    simp only [addNrFree, listAdd, setList, Function.update_self, hlist]

/-- What is known when the call chooses an end of the list. -/
structure Chooses (id : ℕ) (debt : ℕ → ℤ) (z : Zone) (p o k : ℕ) (m : Zone) : Prop where
  lists : FreeLists id debt m
  order : (ending z p o).order = k
  page : (ending z p o).page = blockStart p k
  zone : (ending z p o).zone = setPageOrder m (blockStart p k) k
  sibling : (ending z p o).page + findBuddyIndex (ending z p o).pageIdx k - (ending z p o).pageIdx =
    buddy (blockStart p k) k
  pair : higherPage (ending z p o) = blockStart p (k + 1)
  sought : higherBuddy (ending z p o) =
    neighbour p k + (blockStart p k - blockStart p (k + 1))
  inside : blockStart p k ∈ zonePages id m
  pages : zonePages id m = zonePages id z
  valid : m.pfnValid = z.pfnValid
  larger : ∀ q, (q, k + 1) ∈ blocks m ↔ (q, k + 1) ∈ blocks z

/-- The end of the list is chosen after merging, with the indices of the block. -/
theorem chooses (h : Detached id debt z p o) (hk : StopsAt z p o k) (hlt : k < maxOrder - 2) :
    ∃ m, Chooses id debt z p o k m := by
  have hm := ending_ends h
  have horder : (ending z p o).order = k := hm.stops.unique hk
  have hpage : (ending z p o).page = blockStart p k := by
    rw [← horder]
    exact hm.page
  have hal : 2 ^ k ∣ (ending z p o).page := by
    rw [hpage]
    exact blockStart_dvd p k
  obtain ⟨hbuddy, hhigh, hsought⟩ := higher_eq (ending z p o) (by rwa [horder]) hm.pageIdx
    (by rwa [horder])
  have hpar := parent_blockStart p k
  rw [horder] at hbuddy hhigh hsought
  rw [hpage, hpar] at hhigh hsought
  have hrounds : o + (maxOrder - 1 - o) = pageblockOrder := Nat.add_sub_cancel' h.order_le
  have hmerged := mergeLoop_spec (maxOrder - 1 - o) h hrounds
  have hinside := hmerged.detached.inside (mem_span_self _ _)
  have hup : (mergeLoop z p (p % 2 ^ maxOrder) o (maxOrder - 1 - o)).order ≤ k + 1 :=
    horder.le.trans (Nat.le_succ k)
  refine ⟨(mergeLoop z p (p % 2 ^ maxOrder) o (maxOrder - 1 - o)).zone, hmerged.detached.lists,
    horder, hpage, ?_, ?_, hhigh, hsought, ?_, hmerged.moves.zonePages_eq, hm.valid, ?_⟩
  · rw [← hpage, ← horder]
    rfl
  · rw [hbuddy, hpage]
  · rw [← hpage]
    exact hinside
  · intro q
    rw [mem_blocks, mem_blocks, hm.lists _ hup]

/-- In the lower half, the tail is chosen exactly when the neighbour is free. -/
theorem Chooses.tail_iff {m : Zone} (h : Chooses id debt z p o k m) (hlt : k < maxOrder - 2)
    (hv : z.pfnValid (buddy (blockStart p k) k) = true)
    (hlow : blockStart p (k + 1) = blockStart p k) :
    queuesAtTail (ending z p o) = true ↔ (neighbour p k, k + 1) ∈ blocks z := by
  have hne : neighbour p k ≠ blockStart p k := by
    rw [neighbour, hlow]
    exact buddy_ne _ _
  have hvalid : (setPageOrder m (blockStart p k) k).pfnValid = z.pfnValid := h.valid
  rw [queuesAtTail_eq, h.order, h.pair, h.sought, h.sibling, h.zone, hlow, Nat.sub_self,
    Nat.add_zero, pageIsBuddy_setPageOrder _ _ _ hne, hvalid, hv, decide_eq_true hlt,
    Bool.true_and, Bool.true_and, h.lists.pageIsBuddy_iff h.inside, h.larger]

/-- In the upper half the page examined starts no block of the next order, so that the head is
chosen whatever the neighbour is. -/
theorem Chooses.head {m : Zone} (h : Chooses id debt z p o k m)
    (hpair : blockStart p (k + 1) ∈ zonePages id z) (hup : p / 2 ^ k % 2 = 1) :
    queuesAtTail (ending z p o) = false := by
  rw [Bool.eq_false_iff]
  intro hq
  have hpos := Nat.two_pow_pos k
  have hupper : blockStart p k = blockStart p (k + 1) + 2 ^ k := by
    rw [blockStart_split p k, hup, Nat.one_mul]
  have hne : higherBuddy (ending z p o) ≠ blockStart p k := by
    have hother : neighbour p k ≠ blockStart p (k + 1) := buddy_ne _ _
    rw [h.sought]
    omega
  rw [queuesAtTail_eq, h.zone, h.order, h.pair, pageIsBuddy_setPageOrder _ _ _ hne, Bool.and_eq_true,
    h.lists.pageIsBuddy_iff (by rwa [h.pages])] at hq
  have hal := h.lists.wf.aligned _ _ hq.2
  rw [h.sought] at hal
  have hd : 2 ^ (k + 1) ∣ blockStart p k - blockStart p (k + 1) :=
    (Nat.dvd_add_right (neighbour_dvd p k)).mp hal
  rw [hupper, Nat.add_sub_cancel_left] at hd
  have hle := Nat.le_of_dvd hpos hd
  rw [pow_succ] at hle
  omega

/-- The call of a block of a smaller order looks at the right neighbour exactly when the block
it ends with is the lower half of its pair. -/
theorem tailPlaced_iff (h : Detached id debt z p o) (hk : StopsAt z p o k)
    (hlt : k < maxOrder - 2) (hv : z.pfnValid (buddy (blockStart p k) k) = true) :
    TailPlaced z p o k ↔ p / 2 ^ k % 2 = 0 := by
  obtain ⟨m, hm⟩ := chooses h hk hlt
  have hle : blockStart p (k + 1) ≤ blockStart p k := by
    rw [← parent_blockStart p k]
    exact Nat.and_le_right
  rw [← lower_iff]
  constructor
  · intro hp
    have he := hm.sought.symm.trans hp.examined
    omega
  · intro hlow
    refine ⟨hm.tail_iff hlt hv hlow, ?_⟩
    rw [hm.sought, hlow, Nat.sub_self, Nat.add_zero]

/-- The block is queued by the test, and the test looks at the right neighbour exactly when the
block is the lower half of its pair. -/
theorem tailPlacement_iff (h : Detached id 0 z p o) (hk : StopsAt z p o k) (hlt : k < maxOrder - 2)
    (hv : z.pfnValid (buddy (blockStart p k) k) = true) (t : ℕ) :
    (freeOnePage z p o t).freeList k t = (if queuesAtTail (ending z p o)
      then z.freeList k t ++ [blockStart p k] else blockStart p k :: z.freeList k t) ∧
      (TailPlaced z p o k ↔ p / 2 ^ k % 2 = 0) :=
  ⟨freeOnePage_queues h hk t, tailPlaced_iff h hk hlt hv⟩

/-- A zone of the eight page frames from 8 on, with nothing freed yet. -/
def eightPages : Zone :=
  { fourPages with spannedPages := 8, pfnValid := fun q => 8 ≤ q ∧ q < 16 }

/-- Nothing is freed in the zone of eight pages. -/
theorem eightPages_untouched : Untouched 0 eightPages :=
  ⟨fun _ _ => rfl, fun _ => rfl, fun _ _ => rfl⟩

/-- The eight page frames are pages of the zone. -/
theorem eightPages_pages : Set.Ico 8 16 ⊆ zonePages 0 eightPages := fun q hq =>
  ⟨hq, decide_eq_true hq, by simp only [eightPages, fourPages, pageZoneId]; decide⟩

/-- The pair of frames 10 and 11 and the frame 12 are free. -/
def threeFree : Zone :=
  freeOnePage (freeOnePage eightPages 10 1 migrateMovable) 12 0 migrateMovable

/-- The frames 8 and 9 are handed out there, and the invariant holds. -/
theorem threeFree_detached {q : ℕ} (hq : q = 8 ∨ q = 9) : Detached 0 0 threeFree q 0 := by
  have hinit : Inv 0 (Set.Ico 8 16) ⟨eightPages, Set.Ico 8 16⟩ := by
    refine ⟨eightPages_untouched.lists, eightPages_pages, ?_, ?_⟩
    · rw [eightPages_untouched.freeSet_eq]
      exact Set.empty_disjoint _
    · rw [eightPages_untouched.freeSet_eq, Set.empty_union]
  have hpair := @Inv.free _ _ _ hinit 10 1 migrateMovable
    ⟨by decide, by decide, by decide, Set.Ico_subset_Ico (by decide) (by decide)⟩
  have hpage : Allowed ⟨freeOnePage eightPages 10 1 migrateMovable, Set.Ico 8 16 \ span 10 1⟩
      (.free 12 0 migrateMovable) := by
    refine ⟨by decide, by decide, one_dvd 12, fun a ha => ?_⟩
    simp only [span, Set.mem_Ico, Set.mem_sdiff] at ha ⊢
    omega
  refine (hpair.free hpage).detached (t := 0) ⟨by decide, by decide, one_dvd q, fun a ha => ?_⟩
  simp only [span, Set.mem_Ico, Set.mem_sdiff] at ha ⊢
  omega

/-- Neither frame merges with the other, which is handed out. -/
theorem threeFree_stops {q : ℕ} (hq : q = 8 ∨ q = 9) : StopsAt threeFree q 0 0 := by
  refine ⟨le_rfl, by decide, fun j _ hj => absurd hj (Nat.not_lt_zero j), fun _ hm => ?_⟩
  have hmark := ((threeFree_detached hq).lists.marked _ _ hm).1
  rcases hq with rfl | rfl
  · exact absurd hmark (by decide)
  · exact absurd hmark (by decide)

/-- The lower half is put at the tail, before the free pair. -/
theorem tailPlacement_iff_lower :
    (freeOnePage threeFree 8 0 migrateMovable).freeList 0 migrateMovable = [12, 8] ∧
      TailPlaced threeFree 8 0 0 := by
  have hp := tailPlacement_iff (threeFree_detached (Or.inl rfl)) (threeFree_stops (Or.inl rfl))
    (by decide) (by decide) migrateMovable
  exact ⟨hp.1.trans (by decide), hp.2.mpr (by decide)⟩

/-- The upper half is put at the head, although the block that would merge with the combined
block is free. -/
theorem upperHalf_counterexample :
    Detached 0 0 threeFree 9 0 ∧ StopsAt threeFree 9 0 0 ∧
      threeFree.pfnValid (buddy (blockStart 9 0) 0) = true ∧
      (neighbour 9 0, 1) ∈ blocks threeFree ∧
      (freeOnePage threeFree 9 0 migrateMovable).freeList 0 migrateMovable = [9, 12] ∧
      ¬ TailPlaced threeFree 9 0 0 := by
  have hfree : (neighbour 9 0, 1) ∈ blocks threeFree :=
    mem_blocks.mpr ⟨migrateMovable, by decide⟩
  refine ⟨threeFree_detached (Or.inr rfl), threeFree_stops (Or.inr rfl), by decide, hfree,
    by decide, fun hp => ?_⟩
  exact absurd (hp.tail.mpr hfree) (by decide)

end BiscuitOS.BuddyPlacement
