import BiscuitOS.BucketLists
import BiscuitOS.SlubCacheFree

/-!
# Shrinking and closing a cache

`kmem_cache_shrink` gives the empty slabs back and sorts the partial list by
the objects in use, the fullest slab first. `kmem_cache_close` gives the empty
slabs back and looks at what is left on the list.
-/

namespace BiscuitOS.SlubCacheShrink

open MachineWord ByteMemory LinkedCells BucketLists SlubLayout SlubCacheModel SlubCacheBooks
  SlubCacheSteps

variable {s : CacheDesc} {t u v : SlubState} {b c : Books} {page x : ℕ}

/-- An empty slab of the partial list is given back. -/
theorem discardEmpty (hs : SinglePage s) (h : Accounts s v b) (hmem : page ∈ v.partialList)
    (hzero : (v.pages page).inuse = 0) (hbroken : u.broken = false)
    (htaken : u.taken = v.taken.erase page) (hpages : ∀ q, q ≠ page → u.pages q = v.pages q)
    (hmemory : u.memory = v.memory) (hfreelist : u.cpuFreelist = v.cpuFreelist)
    (hnode : u.cpuNode = v.cpuNode) (hlist : u.partialList = v.partialList.erase page)
    (hcounted : u.nrPartial = u.partialList.length) :
    Accounts s u b ∧ Quiet s b.live v.taken v u := by
  obtain ⟨hin, hthawed, -⟩ := (h.mem_listed page).mp hmem
  have hused := used_eq (h.page page hin)
  rw [hzero] at hused
  have hnone : b.liveOn page = [] := List.eq_nil_of_length_eq_zero (by omega)
  refine ⟨@retire s v _ b _ page hs h hbroken htaken hpages
    (fun _ _ _ _ _ a _ _ => by rw [hmemory]) (fun _ _ => .rfl)
    (fun y hy => ⟨h.live y hy, fun heq => ?_⟩) (fun _ _ => rfl) (fun _ _ => rfl)
    (fun _ _ => Iff.rfl) hthawed (fun _ _ => Iff.rfl) ?_ h.idle (hnode.trans h.node) hlist hcounted,
    quiet_page hin hmemory hpages⟩
  · have hon : y ∈ b.liveOn page := mem_liveOn.mpr ⟨hy, heq⟩
    rw [hnone] at hon
    cases hon
  · rw [hmemory, hfreelist]
    exact h.cpuStack

/-- The order of the partial list is no matter of the books. -/
theorem reorder (hs : SinglePage s) (h : Accounts s t b) {list : List ℕ}
    (hperm : list.Perm t.partialList) : Accounts s { t with partialList := list } b where
  sound := h.sound
  nodup := h.nodup
  page := fun q hq => (h.page q hq).congr hs rfl (fun _ _ _ _ _ => rfl) .rfl rfl rfl Iff.rfl Iff.rfl
  live := h.live
  cpuStack := h.cpuStack
  frozen := h.frozen
  idle := h.idle
  listed := hperm.nodup_iff.mpr h.listed
  mem_listed := fun q => hperm.mem_iff.trans (h.mem_listed q)
  counted := h.counted.trans hperm.length_eq.symm
  node := h.node
  empties := by
    rw [emptySlabs, (hperm.filter _).length_eq]
    exact h.empties

/-- With no slab frozen and no empty slab listed, each slab has a live object. -/
theorem occupied (hs : SinglePage s) (h : Accounts s t b) (hidle : b.frozen = none)
    (hfull : ∀ q ∈ t.partialList, (t.pages q).inuse ≠ 0) :
    ∀ q ∈ t.taken, ∃ y ∈ b.live, y / pageSize = q := by
  intro q hq
  have hp := h.page q hq
  have hused := used_eq hp
  have hpos := hs.pos
  have hsome : (t.pages q).inuse ≠ 0 := by
    by_cases hnil : b.free q = []
    · have hinuse := hp.inuse
      rw [hnil, List.length_nil] at hinuse
      omega
    · exact hfull q ((h.mem_listed q).mpr ⟨hq, Books.frozen_ne hidle q, hnil⟩)
  rw [Books.cpuOn_idle hidle, List.length_nil, Nat.add_zero] at hused
  obtain ⟨y, hy⟩ := List.exists_mem_of_length_pos (show 0 < (b.liveOn q).length by omega)
  exact ⟨y, (mem_liveOn.mp hy).1, (mem_liveOn.mp hy).2⟩

/-- Within the first loop: the slabs that were kept stand on the lists of their counts, the rest is
still on the partial list, and with both on one list the books would be kept. -/
structure Shrinking (s : CacheDesc) (b : Books) (live mine : List ℕ) (t₀ : SlubState)
    (r : SlubState × (ℕ → List ℕ)) (kept rest : List ℕ) : Prop where
  /-- The books. -/
  accounts : Accounts s { r.1 with partialList := kept ++ rest } b
  /-- The rest is still on the list. -/
  list : r.1.partialList = rest
  /-- The lists by count. -/
  buckets : ∀ k, r.2 k = (kept.filter fun q => (r.1.pages q).inuse = k).reverse
  /-- No slab that was kept is empty. -/
  used : ∀ q ∈ kept, (r.1.pages q).inuse ≠ 0
  /-- The cpu keeps its page. -/
  cpuPage : r.1.cpuPage = t₀.cpuPage
  /-- Pages are only given back. -/
  taken : r.1.taken ⊆ mine
  /-- Nothing else changes. -/
  quiet : Quiet s live mine t₀ r.1

/-- A round of the first loop. -/
theorem shrinkPage_step (hs : SinglePage s) (hunlocked : b.locked = none)
    {mine : List ℕ} {t₀ : SlubState} {r : SlubState × (ℕ → List ℕ)} {kept rest : List ℕ}
    (h : Shrinking s b b.live mine t₀ r kept (page :: rest)) :
    ∃ kept', Shrinking s b b.live mine t₀ (shrinkPage s (perPage s) r page) kept' rest := by
  have hmem : page ∈ kept ++ page :: rest := List.mem_append_right _ List.mem_cons_self
  have hin := ((h.accounts.mem_listed page).mp hmem).1
  have hsome := ((h.accounts.mem_listed page).mp hmem).2.2
  have hin' : page ∈ r.1.taken := hin
  have hp := h.accounts.page page hin
  have hfree : (r.1.pages page).locked = false := by
    have := hp.locked
    rwa [hunlocked] at this
  have hnodup := h.accounts.listed
  have hnot : page ∉ kept := fun hk =>
    List.disjoint_of_nodup_append hnodup hk List.mem_cons_self
  have hmem' : page ∈ r.1.partialList := h.list ▸ List.mem_cons_self
  have herase : r.1.partialList.erase page = rest := by rw [h.list, List.erase_cons_head]
  have hrest : (kept ++ page :: rest).erase page = kept ++ rest := by
    rw [List.erase_append_right _ hnot, List.erase_cons_head]
  rw [shrinkPage]
  by_cases hzero : (r.1.pages page).inuse = 0
  · rw [if_pos ⟨hzero, by rw [canLock, hfree]; rfl⟩]
    have hlock : slabLock r.1 page = r.1.setDesc page { r.1.pages page with locked := true } := by
      rw [slabLock, hfree, if_neg Bool.false_ne_true]
    have hlen := listed_length h.accounts
    have hcounted := h.accounts.counted
    have hless : wrapSub 64 r.1.nrPartial 1 = (kept ++ rest).length := by
      have hcount : r.1.nrPartial = (kept ++ page :: rest).length := hcounted
      have hlen' : (kept ++ page :: rest).length < 2 ^ 63 := hlen
      rw [List.length_append, List.length_cons] at hcount hlen'
      rw [hcount, wrapSub_of_le (by omega) (by omega), List.length_append]
      omega
    obtain ⟨w, hw⟩ : ∃ w, w = discardSlab s (slabUnlock (removePartial (slabLock r.1 page) page)
      page) page := ⟨_, rfl⟩
    have heq : w = { r.1.setDesc page
        { r.1.pages page with locked := false, pageSlab := false } with
        taken := r.1.taken.erase page
        partialList := rest
        nrPartial := (kept ++ rest).length } := by
      rw [hw, hlock, removePartial, setDesc_partialList, if_pos hmem',
        discardSlab_eq hs (by exact hin')]
      simp only [slabUnlock, SlubState.setDesc, Function.update_self, Function.update_idem, herase,
        hless]
    rw [← hw]
    have hpages : ∀ q, q ≠ page → w.pages q = r.1.pages q := fun q hq => by
      rw [heq]
      exact Function.update_of_ne hq _ _
    obtain ⟨haccounts, hquiet⟩ := discardEmpty (u := { w with partialList := kept ++ rest }) hs
      h.accounts hmem hzero (by rw [heq]; exact h.accounts.sound) (by rw [heq]) hpages
      (by rw [heq]; rfl) (by rw [heq]; rfl) (by rw [heq]; rfl) hrest.symm (by rw [heq])
    refine ⟨kept, haccounts, by rw [heq], fun k => ?_, fun q hq => ?_, ?_, ?_, ?_⟩
    · have hsame : (kept.filter fun q => decide ((r.1.pages q).inuse = k)) =
          kept.filter fun q => decide ((w.pages q).inuse = k) :=
        List.filter_congr fun q hq => by rw [hpages q fun hqp => hnot (hqp ▸ hq)]
      exact (h.buckets k).trans (congrArg List.reverse hsame)
    · rw [hpages q fun hqp => hnot (hqp ▸ hq)]
      exact h.used q hq
    · rw [heq]
      exact h.cpuPage
    · rw [heq]
      exact List.Subset.trans List.erase_subset h.taken
    · have hlater : Quiet s b.live mine r.1 w :=
        ⟨fun q hq => hquiet.pages q fun hq' => hq (h.taken hq'),
          fun a ha => hquiet.memory a (ha.imp (fun hout hq' => hout (h.taken hq')) id)⟩
      exact h.quiet.trans hlater
  · have hless : (r.1.pages page).inuse < perPage s := by
      have hinuse := hp.inuse
      have hpos : 0 < (b.free page).length := List.length_pos_iff.mpr hsome
      have hinuse' : (r.1.pages page).inuse + (b.free page).length = perPage s := hinuse
      omega
    rw [if_neg fun hboth => hzero hboth.1, if_pos hless, leavePartial, if_pos hmem', herase]
    have happend : kept ++ page :: rest = (kept ++ [page]) ++ rest := by
      rw [List.append_assoc, List.singleton_append]
    refine ⟨kept ++ [page], ?_, rfl, fun k => ?_, fun q hq => ?_, h.cpuPage, h.taken,
      ⟨h.quiet.pages, h.quiet.memory⟩⟩
    · have haccounts := h.accounts
      rw [happend] at haccounts
      exact haccounts
    · dsimp only
      rw [List.filter_append, List.reverse_append]
      by_cases hk : k = (r.1.pages page).inuse
      · rw [hk, Function.update_self, h.buckets, List.filter_cons, if_pos (decide_eq_true rfl)]
        rfl
      · rw [Function.update_of_ne hk, h.buckets k, List.filter_cons, if_neg]
        · rfl
        · rw [decide_eq_true_iff]
          exact Ne.symm hk
    · rcases List.mem_append.mp hq with hq | hq
      · exact h.used q hq
      · rw [List.mem_singleton.mp hq]
        exact hzero

/-- The first loop. -/
theorem shrinkPage_loop (hs : SinglePage s) (hunlocked : b.locked = none)
    {mine : List ℕ} {t₀ : SlubState} (rest : List ℕ) :
    ∀ (r : SlubState × (ℕ → List ℕ)) (kept : List ℕ), Shrinking s b b.live mine t₀ r kept rest →
      ∃ kept', Shrinking s b b.live mine t₀ (rest.foldl (shrinkPage s (perPage s)) r) kept' [] := by
  induction rest with
  | nil => exact fun r kept h => ⟨kept, h⟩
  | cons page rest ih =>
    intro r kept h
    obtain ⟨kept', hstep⟩ := shrinkPage_step hs hunlocked h
    exact ih _ kept' hstep

/-- The second loop gathers the lists. -/
theorem spliceLists_eq (buckets : ℕ → List ℕ) (n : ℕ) (list : List ℕ) :
    spliceLists buckets n list = list ++ gather buckets n := by
  induction n generalizing list with
  | zero => rw [spliceLists, gather, List.append_nil]
  | succ n ih => rw [spliceLists, ih, gather, List.append_assoc]

/-- What a cache is like after `kmem_cache_shrink`. -/
structure Shrunk (s : CacheDesc) (t : SlubState) (b : Books) (u : SlubState) (c : Books) : Prop
    extends Flushed s t b u c where
  /-- The fullest slab is the first one. -/
  sorted : u.partialList.Pairwise fun p q => (u.pages q).inuse ≤ (u.pages p).inuse
  /-- Each slab that is left has a live object. -/
  occupied : ∀ q ∈ u.taken, ∃ y ∈ b.live, y / pageSize = q

/-- `kmem_cache_shrink` when the array of lists is granted. -/
theorem kmemCacheShrink_shrunk (hs : SinglePage s) (h : Settled s t b) :
    (kmemCacheShrink s t true).1 = 0 ∧ ∃ c, Shrunk s t b (kmemCacheShrink s t true).2 c := by
  obtain ⟨c, hflushed⟩ := flushAll_settled hs h
  have haccounts := hflushed.settled.toAccounts
  have hobjects : ooObjects s.max = perPage s := hs.max
  rw [kmemCacheShrink, if_pos rfl, hobjects]
  dsimp only
  by_cases hnone : (flushAll s t).nrPartial = 0
  · have hnil : (flushAll s t).partialList = [] := by
      rw [haccounts.counted] at hnone
      exact List.eq_nil_of_length_eq_zero hnone
    rw [if_pos hnone]
    refine ⟨rfl, c, hflushed, by rw [hnil]; exact .nil, ?_⟩
    rw [← hflushed.live]
    exact occupied hs haccounts hflushed.frozen fun q hq => by rw [hnil] at hq; cases hq
  · rw [if_neg hnone]
    have hstart : Shrinking s c c.live (flushAll s t).taken (flushAll s t)
        (flushAll s t, fun _ => []) [] (flushAll s t).partialList :=
      ⟨haccounts, rfl, fun _ => rfl, fun q hq => (by cases hq), rfl, fun _ hq => hq, .refl⟩
    obtain ⟨kept, hdone⟩ := shrinkPage_loop hs hflushed.settled.unlocked _ _ _ hstart
    obtain ⟨r, hr⟩ : ∃ r, r = (flushAll s t).partialList.foldl (shrinkPage s (perPage s))
      (flushAll s t, fun _ => []) := ⟨_, rfl⟩
    rw [← hr] at hdone ⊢
    have hin : ∀ q ∈ kept, (r.1.pages q).inuse < perPage s := by
      intro q hq
      have hmem := (hdone.accounts.mem_listed q).mp (List.mem_append_left _ hq)
      have hinuse : (r.1.pages q).inuse + (c.free q).length = perPage s :=
        (hdone.accounts.page q hmem.1).inuse
      have hpos : 0 < (c.free q).length := List.length_pos_iff.mpr hmem.2.2
      omega
    have hlist : spliceLists r.2 (perPage s) r.1.partialList = gather r.2 (perPage s) := by
      rw [spliceLists_eq, hdone.list, List.nil_append]
    have hperm : (gather r.2 (perPage s)).Perm kept := by
      have hall := @gather_perm ℕ r.2 (fun q => (r.1.pages q).inuse) kept
        (fun k => by rw [hdone.buckets k]; exact List.reverse_perm _) (perPage s)
      have hkeep : (kept.filter fun q => decide ((r.1.pages q).inuse < perPage s)) = kept :=
        List.filter_eq_self.mpr fun q hq => decide_eq_true (hin q hq)
      rwa [hkeep] at hall
    have hkeys : ∀ k, ∀ q ∈ r.2 k, (r.1.pages q).inuse = k := fun k q hq => by
      rw [hdone.buckets k, List.mem_reverse, List.mem_filter] at hq
      exact of_decide_eq_true hq.2
    have hsorted := (@gather_sorted ℕ r.2 (fun q => (r.1.pages q).inuse) hkeys (perPage s)).1
    have hbooks : Accounts s { r.1 with partialList := gather r.2 (perPage s) } c := by
      refine reorder hs (t := { r.1 with partialList := kept ++ [] }) hdone.accounts ?_
      rw [List.append_nil]
      exact hperm
    have hmoved : Quiet s b.live t.taken t { r.1 with partialList := gather r.2 (perPage s) } := by
      refine hflushed.quiet.trans ?_
      have hlive : b.live ⊆ c.live := fun y hy => hflushed.live ▸ hy
      have hlater := hdone.quiet.mono hlive hflushed.taken
      exact ⟨hlater.pages, hlater.memory⟩
    rw [hlist]
    refine ⟨rfl, c, ⟨⟨hbooks, hflushed.settled.unlocked, ?_⟩, hflushed.frozen, hflushed.live, hmoved,
      List.Subset.trans hdone.taken hflushed.taken⟩, hsorted, ?_⟩
    · exact hdone.cpuPage.trans hflushed.settled.current
    · rw [← hflushed.live]
      exact occupied hs hbooks hflushed.frozen fun q hq => hdone.used q (hperm.mem_iff.mp hq)

/-- Within the loop of `free_partial`: the slabs that were seen and kept are not empty. -/
structure Closing (s : CacheDesc) (b : Books) (live mine : List ℕ) (t₀ r : SlubState)
    (kept rest : List ℕ) : Prop where
  /-- The books. -/
  accounts : Accounts s r b
  /-- The list. -/
  list : r.partialList = kept ++ rest
  /-- No slab that was kept is empty. -/
  used : ∀ q ∈ kept, (r.pages q).inuse ≠ 0
  /-- The cpu keeps its page. -/
  cpuPage : r.cpuPage = t₀.cpuPage
  /-- Pages are only given back. -/
  taken : r.taken ⊆ mine
  /-- Nothing else changes. -/
  quiet : Quiet s live mine t₀ r

/-- A round of the loop of `free_partial`. -/
theorem freePartialPage_step (hs : SinglePage s) {mine : List ℕ} {t₀ : SlubState}
    {kept rest : List ℕ} (h : Closing s b b.live mine t₀ t kept (page :: rest)) :
    ∃ kept', Closing s b b.live mine t₀ (freePartialPage s t page) kept' rest := by
  have hmem : page ∈ t.partialList := by
    rw [h.list]
    exact List.mem_append_right _ List.mem_cons_self
  have hin := ((h.accounts.mem_listed page).mp hmem).1
  have hnodup := h.accounts.listed
  rw [h.list] at hnodup
  have hnot : page ∉ kept := fun hk =>
    List.disjoint_of_nodup_append hnodup hk List.mem_cons_self
  have hrest : t.partialList.erase page = kept ++ rest := by
    rw [h.list, List.erase_append_right _ hnot, List.erase_cons_head]
  rw [freePartialPage]
  by_cases hzero : (t.pages page).inuse = 0
  · have hlen := listed_length h.accounts
    have hless : wrapSub 64 t.nrPartial 1 = (t.partialList.erase page).length := by
      rw [h.accounts.counted, List.length_erase_of_mem hmem]
      exact wrapSub_of_le (by omega) (List.length_pos_of_mem hmem)
    obtain ⟨w, hw⟩ : ∃ w, w = discardSlab s (removePartial t page) page := ⟨_, rfl⟩
    have heq : w = { t.setDesc page { t.pages page with pageSlab := false } with
        taken := t.taken.erase page
        partialList := t.partialList.erase page
        nrPartial := (t.partialList.erase page).length } := by
      rw [hw, removePartial, if_pos hmem, discardSlab_eq hs (by exact hin), hless]
      rfl
    have hpages : ∀ q, q ≠ page → w.pages q = t.pages q := fun q hq => by
      rw [heq]
      exact Function.update_of_ne hq _ _
    obtain ⟨haccounts, hquiet⟩ := discardEmpty (u := w) hs h.accounts hmem hzero
      (by rw [heq]; exact h.accounts.sound) (by rw [heq]) hpages (by rw [heq]; rfl)
      (by rw [heq]; rfl) (by rw [heq]; rfl) (by rw [heq]) (by rw [heq])
    rw [if_pos hzero, ← hw]
    refine ⟨kept, haccounts, ?_, fun q hq => ?_, ?_, ?_, ?_⟩
    · rw [heq]
      exact hrest
    · rw [hpages q fun hqp => hnot (hqp ▸ hq)]
      exact h.used q hq
    · rw [heq]
      exact h.cpuPage
    · rw [heq]
      exact List.Subset.trans List.erase_subset h.taken
    · exact h.quiet.trans (hquiet.mono (fun _ hy => hy) h.taken)
  · rw [if_neg hzero]
    refine ⟨kept ++ [page], h.accounts, ?_, fun q hq => ?_, h.cpuPage, h.taken, h.quiet⟩
    · rw [h.list, List.append_assoc, List.singleton_append]
    · rcases List.mem_append.mp hq with hq | hq
      · exact h.used q hq
      · rw [List.mem_singleton.mp hq]
        exact hzero

/-- The loop of `free_partial`. -/
theorem freePartialPage_loop (hs : SinglePage s) {mine : List ℕ} {t₀ : SlubState} (rest : List ℕ) :
    ∀ (t : SlubState) (kept : List ℕ), Closing s b b.live mine t₀ t kept rest →
      ∃ kept', Closing s b b.live mine t₀ (rest.foldl (freePartialPage s) t) kept' [] := by
  induction rest with
  | nil => exact fun t kept h => ⟨kept, h⟩
  | cons page rest ih =>
    intro t kept h
    obtain ⟨kept', hstep⟩ := freePartialPage_step hs h
    exact ih _ kept' hstep

/-- What a cache is like after `kmem_cache_close`, and what its answer says. -/
structure Closed (s : CacheDesc) (t : SlubState) (b : Books) (r : ℤ × SlubState) (c : Books) : Prop
    extends Flushed s t b r.2 c where
  /-- Each slab that is left has a live object. -/
  occupied : ∀ q ∈ r.2.taken, ∃ y ∈ b.live, y / pageSize = q
  /-- One tells that a slab is left with an object that is not live, zero that there is none. -/
  answer : (r.1 = 1 ∧ ∃ q ∈ r.2.taken, ∃ y ∈ slabObjects s q, y ∉ b.live) ∨
    (r.1 = 0 ∧ ∀ q ∈ r.2.taken, ∀ y ∈ slabObjects s q, y ∈ b.live)

/-- `kmem_cache_close`. -/
theorem kmemCacheClose_closed (hs : SinglePage s) (h : Settled s t b) :
    ∃ c, Closed s t b (kmemCacheClose s t) c := by
  obtain ⟨c, hflushed⟩ := flushAll_settled hs h
  have haccounts := hflushed.settled.toAccounts
  have hstart : Closing s c c.live (flushAll s t).taken (flushAll s t) (flushAll s t) []
      (flushAll s t).partialList :=
    ⟨haccounts, rfl, fun q hq => (by cases hq), rfl, fun _ hq => hq, .refl⟩
  obtain ⟨kept, hdone⟩ := freePartialPage_loop hs _ _ _ hstart
  obtain ⟨w, hw⟩ : ∃ w, w = freePartial s (flushAll s t) := ⟨_, rfl⟩
  have hfold : (flushAll s t).partialList.foldl (freePartialPage s) (flushAll s t) = w := by
    rw [hw, freePartial]
  rw [hfold] at hdone
  have hlist : w.partialList = kept := by rw [hdone.list, List.append_nil]
  have hlive : b.live ⊆ c.live := fun y hy => hflushed.live ▸ hy
  have hmem : ∀ q ∈ w.taken, (∀ y ∈ slabObjects s q, y ∈ b.live) ↔ c.free q = [] := by
    intro q hq
    rw [← hflushed.live, hdone.accounts.all_live_iff hs hq,
      and_iff_right (Books.cpuOn_idle hflushed.frozen q)]
  have hmoved := hflushed.quiet.trans (hdone.quiet.mono hlive hflushed.taken)
  have hanswer : kmemCacheClose s t = (if w.nrPartial ≠ 0 then 1 else 0, w) := by
    rw [kmemCacheClose, ← hw]
  rw [hanswer]
  refine ⟨c, ⟨⟨hdone.accounts, hflushed.settled.unlocked,
    hdone.cpuPage.trans hflushed.settled.current⟩, hflushed.frozen, hflushed.live, hmoved,
    List.Subset.trans hdone.taken hflushed.taken⟩, ?_, ?_⟩
  · rw [← hflushed.live]
    exact occupied hs hdone.accounts hflushed.frozen fun q hq => hdone.used q (hlist ▸ hq)
  · by_cases hzero : w.nrPartial = 0
    · refine .inr ⟨if_neg (not_not.mpr hzero), fun q hq => (hmem q hq).mpr ?_⟩
      have hnil : w.partialList = [] := by
        rw [hdone.accounts.counted] at hzero
        exact List.eq_nil_of_length_eq_zero hzero
      by_contra hsome
      have hlisted := (hdone.accounts.mem_listed q).mpr
        ⟨hq, Books.frozen_ne hflushed.frozen q, hsome⟩
      rw [hnil] at hlisted
      cases hlisted
    · refine .inl ⟨if_pos hzero, ?_⟩
      have hpos : 0 < w.partialList.length := by
        rw [← hdone.accounts.counted]
        omega
      obtain ⟨q, hq⟩ := List.exists_mem_of_length_pos hpos
      obtain ⟨hin, -, hsome⟩ := (hdone.accounts.mem_listed q).mp hq
      obtain ⟨y, hy⟩ := List.exists_mem_of_ne_nil _ hsome
      refine ⟨q, hin, y, hdone.accounts.free_object hin hy, fun hon => ?_⟩
      exact hdone.accounts.live_ne_free hs (hlive hon) hin hy rfl

end BiscuitOS.SlubCacheShrink
