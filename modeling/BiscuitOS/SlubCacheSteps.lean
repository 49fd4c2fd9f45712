import BiscuitOS.SlubCacheBooks

/-!
# The steps of a cache

Each step of `slab_alloc` and `slab_free` moves objects between the lists of
the books, or a slab between the cpu, the partial list and the page allocator,
and leaves live objects and the pages of others alone.
-/

namespace BiscuitOS.SlubCacheSteps

open MachineWord ByteMemory LinkedCells SlubLayout SlubCacheModel SlubCacheBooks

variable {s : CacheDesc} {t u : SlubState} {b c : Books} {page x : ℕ}

@[simp] theorem setDesc_pages (t : SlubState) (page : ℕ) (d : SlabDesc) :
    (t.setDesc page d).pages = Function.update t.pages page d := rfl

@[simp] theorem setDesc_nrPartial (t : SlubState) (page : ℕ) (d : SlabDesc) :
    (t.setDesc page d).nrPartial = t.nrPartial := rfl

@[simp] theorem setDesc_partialList (t : SlubState) (page : ℕ) (d : SlabDesc) :
    (t.setDesc page d).partialList = t.partialList := rfl

/-- The empty slabs of the same list with the same counts. -/
theorem emptySlabs_congr (hlist : u.partialList = t.partialList)
    (hinuse : ∀ q ∈ t.partialList, (u.pages q).inuse = (t.pages q).inuse) :
    emptySlabs u = emptySlabs t := by
  rw [emptySlabs, emptySlabs, hlist]
  exact List.filter_congr fun q hq => by rw [hinuse q hq]

/-- Pages of which nothing changes agree with the books as before. -/
theorem others (hs : SinglePage s) (h : Accounts s t b)
    (hpages : ∀ q, q ≠ page → u.pages q = t.pages q)
    (hmemory : ∀ q ∈ t.taken, q ≠ page → ∀ x ∈ b.free q, Same t.memory u.memory x (slotSize s))
    (hlive : ∀ q, q ≠ page → (c.liveOn q).Perm (b.liveOn q))
    (hcpu : ∀ q, q ≠ page → c.cpuOn q = b.cpuOn q)
    (hfree : ∀ q, q ≠ page → c.free q = b.free q)
    (hfrozen : ∀ q, q ≠ page → (c.frozen = some q ↔ b.frozen = some q))
    (hlocked : ∀ q, q ≠ page → (c.locked = some q ↔ b.locked = some q)) :
    ∀ q ∈ t.taken, q ≠ page → PageAccounts s u c q := fun q hq hne =>
  (h.page q hq).congr hs (hpages q hne) (hmemory q hq hne) (hlive q hne) (hcpu q hne) (hfree q hne)
    (hfrozen q hne) (hlocked q hne)

/-- Objects move between the cpu, the frozen slab and the users. -/
theorem adjust (hs : SinglePage s) (h : Accounts s t b) (hfrozen : b.frozen = some page)
    (hbroken : u.broken = false) (htaken : u.taken = t.taken)
    (hlist : u.partialList = t.partialList) (hnr : u.nrPartial = t.nrPartial)
    (hsame : c.frozen = b.frozen)
    (hpages : ∀ q, q ≠ page → u.pages q = t.pages q)
    (hmemory : ∀ q ∈ t.taken, q ≠ page → ∀ x ∈ b.free q, Same t.memory u.memory x (slotSize s))
    (hliveOn : ∀ q, q ≠ page → (c.liveOn q).Perm (b.liveOn q))
    (hfree : ∀ q, q ≠ page → c.free q = b.free q)
    (hlocked : ∀ q, q ≠ page → (c.locked = some q ↔ b.locked = some q))
    (hpage : PageAccounts s u c page) (hlive : ∀ x ∈ c.live, x / pageSize ∈ t.taken)
    (hcpu : Linked u.memory (slotOffset s) u.cpuFreelist c.cpu) (hnode : u.cpuNode = 0) :
    Accounts s u c := by
  have hcpuOn : ∀ q, q ≠ page → c.cpuOn q = b.cpuOn q := by
    intro q hne
    have hother : b.frozen ≠ some q := by
      rw [hfrozen]
      exact fun hsome => hne (Option.some.inj hsome).symm
    rw [Books.cpuOn, Books.cpuOn, hsame, if_neg hother, if_neg hother]
  have hothers := others hs h hpages hmemory hliveOn hcpuOn hfree (fun q _ => by rw [hsame]) hlocked
  refine
    { sound := hbroken
      nodup := htaken ▸ h.nodup
      page := fun q hq => ?_
      live := htaken ▸ hlive
      cpuStack := hcpu
      frozen := fun q hq => htaken ▸ h.frozen q (hsame ▸ hq)
      idle := fun hnone => ?_
      listed := hlist ▸ h.listed
      mem_listed := fun q => ?_
      counted := by rw [hnr, hlist, h.counted]
      node := hnode
      empties := ?_ }
  · by_cases hq' : q = page
    · exact hq' ▸ hpage
    · exact hothers q (htaken ▸ hq) hq'
  · rw [hsame, hfrozen] at hnone
    cases hnone
  · rw [hlist, htaken, hsame, h.mem_listed q]
    by_cases hq : q = page
    · simp only [hq, hfrozen, ne_eq, not_true_eq_false, false_and]
    · rw [hfree q hq]
  · rw [emptySlabs_congr hlist fun q hq => ?_]
    · exact h.empties
    · have hne : q ≠ page := by
        rintro rfl
        exact ((h.mem_listed q).mp hq).2.1 hfrozen
      rw [hpages q hne]

/-- Setting or clearing the lock of a slab. -/
theorem relock (hs : SinglePage s) (h : Accounts s t b) (hpage : page ∈ t.taken)
    (hother : ∀ q, q ≠ page → b.locked ≠ some q) (l : Bool) :
    Accounts s (t.setDesc page { t.pages page with locked := l })
      { b with locked := if l then some page else none } := by
  have hkept : ∀ q, q ≠ page →
      (t.setDesc page { t.pages page with locked := l }).pages q = t.pages q :=
    fun q hq => Function.update_of_ne hq _ _
  have hself : (t.setDesc page { t.pages page with locked := l }).pages page =
      { t.pages page with locked := l } := Function.update_self ..
  have hinuse : ∀ q, ((t.setDesc page { t.pages page with locked := l }).pages q).inuse =
      (t.pages q).inuse := by
    intro q
    by_cases hq : q = page
    · rw [hq, hself]
    · rw [hkept q hq]
  have hothers := others (u := t.setDesc page { t.pages page with locked := l })
    (c := { b with locked := if l then some page else none }) hs h hkept
    (fun q _ _ x _ a _ _ => rfl) (fun _ _ => .rfl) (fun _ _ => rfl) (fun _ _ => rfl)
    (fun _ _ => Iff.rfl) fun q hq => by
      cases l with
      | true => exact ⟨fun hsome => absurd (Option.some.inj hsome).symm hq,
          fun hsome => absurd hsome (hother q hq)⟩
      | false => exact ⟨fun hsome => (by cases hsome), fun hsome => absurd hsome (hother q hq)⟩
  have hp := h.page page hpage
  refine
    { sound := h.sound
      nodup := h.nodup
      page := fun q hq => ?_
      live := h.live
      cpuStack := h.cpuStack
      frozen := h.frozen
      idle := h.idle
      listed := h.listed
      mem_listed := h.mem_listed
      counted := h.counted
      node := h.node
      empties := ?_ }
  · by_cases hq' : q = page
    · subst hq'
      refine ⟨hp.addressable, ?_, ?_, ?_, ?_, hp.split, ?_, ?_, ?_⟩
      · rw [hself, hp.slab]
      · rw [hself, hp.objects]
      · rw [hself, hp.inuse]
      · rw [hself]
        exact hp.stack
      · rw [hself, hp.frozen]
      · rw [hself]
        cases l <;> simp
      · rw [hself, hp.pageSlab]
    · exact hothers q hq hq'
  · have hempty := emptySlabs_congr (t := t)
      (u := t.setDesc page { t.pages page with locked := l }) rfl fun q _ => hinuse q
    rw [hempty]
    exact h.empties

/-- `slab_lock` of a slab that is not locked. -/
theorem slabLock_accounts (hs : SinglePage s) (h : Accounts s t b) (hpage : page ∈ t.taken)
    (hnone : b.locked = none) :
    slabLock t page = t.setDesc page { t.pages page with locked := true } ∧
      Accounts s (slabLock t page) { b with locked := some page } := by
  have hfree : (t.pages page).locked = false := by
    rw [(h.page page hpage).locked, hnone]
    rfl
  have heq : slabLock t page = t.setDesc page { t.pages page with locked := true } := by
    rw [slabLock, hfree, if_neg Bool.false_ne_true]
  refine ⟨heq, ?_⟩
  rw [heq]
  exact relock hs h hpage (fun q _ => by rw [hnone]; exact (Option.some_ne_none q).symm) true

/-- `slab_unlock`. -/
theorem slabUnlock_accounts (hs : SinglePage s) (h : Accounts s t b) (hpage : page ∈ t.taken)
    (hlocked : b.locked = some page) :
    Accounts s (slabUnlock t page) { b with locked := none } :=
  relock hs h hpage (fun q hq => by
    rw [hlocked]
    exact fun hsome => hq (Option.some.inj hsome).symm) false

/-- The number of objects of a page in use is the number of those that are not on its list. -/
theorem used_eq (h : PageAccounts s t b page) :
    (t.pages page).inuse = (b.liveOn page).length + (b.cpuOn page).length := by
  have hall := h.split.length_eq
  rw [List.length_append, List.length_append, slabObjects_length] at hall
  have := h.inuse
  omega

/-- A round of the loop of `deactive_slab`. -/
theorem mergeObject_accounts (hs : SinglePage s) (h : Accounts s t b)
    (hfrozen : b.frozen = some page) (hne : t.cpuFreelist ≠ 0) :
    ∃ rest, b.cpu = t.cpuFreelist :: rest ∧ Accounts s (mergeObject s page t)
        { b with cpu := rest, free := Function.update b.free page (t.cpuFreelist :: b.free page) } ∧
      Quiet s b.live t.taken t (mergeObject s page t) := by
  obtain ⟨rest, hcpu, hrest⟩ := h.cpuStack.pop hne
  have hin := h.frozen page hfrozen
  have hp := h.page page hin
  have hon : b.cpuOn page = t.cpuFreelist :: rest := by rw [Books.cpuOn, if_pos hfrozen, hcpu]
  have hobject : t.cpuFreelist ∈ slabObjects s page :=
    hp.mem_slabObjects.mpr (.inr (.inl (hon ▸ List.mem_cons_self)))
  have hmem : t.cpuFreelist ∈ b.cpu := hcpu ▸ List.mem_cons_self
  obtain ⟨hzero, hlt⟩ := hp.addressable.object hobject
  have hself : (mergeObject s page t).pages page = { t.pages page with
      freelist := t.cpuFreelist
      inuse := wrapSub 16 (t.pages page).inuse 1 } := Function.update_self ..
  have hkept : ∀ q, q ≠ page → (mergeObject s page t).pages q = t.pages q :=
    fun q hq => Function.update_of_ne hq _ _
  have hfree : ∀ q ∈ t.taken, ∀ y ∈ b.free q, Apart (slotSize s) t.cpuFreelist y :=
    fun q hq y hy => slabObjects_apart hobject (h.free_object hq hy) (h.cpu_ne_free hs hmem hq hy)
  have hused := used_eq hp
  have hfew := hs.few
  have hinuse := hp.inuse
  rw [hon, List.length_cons] at hused
  have hless : wrapSub 16 (t.pages page).inuse 1 = (t.pages page).inuse - 1 :=
    wrapSub_of_le (by omega) (by omega)
  refine ⟨rest, hcpu, ?_, ?_⟩
  · refine adjust hs h hfrozen h.sound rfl rfl rfl rfl hkept
      (fun q hq _ y hy => same_setFreepointer hs _ _ (hfree q hq y hy)) (fun _ _ => .rfl)
      (fun q hq => Function.update_of_ne hq _ _) (fun _ _ => Iff.rfl) ?_ h.live ?_ h.node
    · refine ⟨hp.addressable, ?_, ?_, ?_, ?_, ?_, ?_, ?_, ?_⟩
      · rw [hself, hp.slab]
      · rw [hself, hp.objects]
      · rw [hself, hless]
        simp only [Function.update_self, List.length_cons]
        omega
      · rw [hself]
        simp only [Function.update_self]
        exact hp.stack.push hs.pointer hzero hlt (hfree page hin)
      · refine List.Perm.trans ?_ hp.split
        rw [hon, Books.cpuOn, if_pos hfrozen]
        simp only [Function.update_self]
        rw [List.perm_iff_count]
        intro a
        simp only [List.count_append, List.count_cons, Books.liveOn]
        omega
      · rw [hself, hp.frozen]
      · rw [hself, hp.locked]
      · rw [hself, hp.pageSlab]
    · refine hrest.same hs.pointer fun y hy => same_setFreepointer hs _ _ ?_
      have hnodup : (t.cpuFreelist :: rest).Nodup := by
        have hall := hp.nodup hs
        rw [hon] at hall
        exact (hall.of_append_left).of_append_right
      have hother : y ∈ slabObjects s page :=
        hp.mem_slabObjects.mpr (.inr (.inl (hon ▸ List.mem_cons_of_mem _ hy)))
      exact slabObjects_apart hobject hother fun heq => (List.nodup_cons.mp hnodup).1 (heq ▸ hy)
  · refine quiet_setFreepointer hs (t.pages page).freelist (fun q hq => ?_) rfl hobject hin
      fun y hy => slabObjects_apart hobject (h.live_object hy) (h.live_ne_cpu hs hy hmem).symm
    exact hkept q fun heq => hq (heq ▸ hin)

/-- The loop of `deactive_slab`. -/
theorem mergeFreelist_accounts (hs : SinglePage s) (fuel : ℕ) :
    ∀ (tail : Bool) (t : SlubState) (b : Books), Accounts s t b → b.frozen = some page →
      b.cpu.length < fuel → ∃ cells, cells.Perm (b.cpu ++ b.free page) ∧
        Accounts s (mergeFreelist s page fuel tail t).2
          { b with cpu := [], free := Function.update b.free page cells } ∧
        Quiet s b.live t.taken t (mergeFreelist s page fuel tail t).2 ∧
        (mergeFreelist s page fuel tail t).2.taken = t.taken := by
  induction fuel with
  | zero => exact fun _ _ _ _ _ hlen => absurd hlen (Nat.not_lt_zero _)
  | succ fuel ih =>
    intro tail t b h hfrozen hlen
    by_cases hzero : t.cpuFreelist = 0
    · have hcpu : b.cpu = [] := h.cpuStack.nil_iff.mpr hzero
      have hsame : { b with cpu := [], free := Function.update b.free page (b.free page) } = b := by
        rw [Function.update_eq_self, ← hcpu]
      rw [mergeFreelist, if_pos hzero]
      refine ⟨b.free page, ?_, ?_, .refl, rfl⟩
      · rw [hcpu, List.nil_append]
      · rw [hsame]
        exact h
    · obtain ⟨rest, hcpu, hstep, hquiet⟩ := mergeObject_accounts hs h hfrozen hzero
      rw [hcpu, List.length_cons] at hlen
      have htaken : (mergeObject s page t).taken = t.taken := rfl
      obtain ⟨cells, hperm, haccounts, hlater, hkept⟩ := ih false _ _ hstep hfrozen (by
        dsimp only
        omega)
      rw [mergeFreelist, if_neg hzero]
      refine ⟨cells, ?_, ?_, hquiet.trans (htaken ▸ hlater), hkept.trans htaken⟩
      · simp only [Function.update_self] at hperm
        rw [hcpu]
        exact hperm.trans List.perm_middle
      · simp only [Function.update_idem] at haccounts
        exact haccounts

/-- The pages of a cache can be counted. -/
theorem listed_length (h : Accounts s t b) : t.partialList.length < 2 ^ 63 := by
  have hsub : t.partialList.toFinset ⊆ Finset.range (2 ^ 52) := by
    intro q hq
    have hin := ((h.mem_listed q).mp (List.mem_toFinset.mp hq)).1
    obtain ⟨-, hend⟩ := (h.page q hin).addressable
    rw [pageSize] at hend
    rw [Finset.mem_range]
    omega
  have hcard := Finset.card_le_card hsub
  rw [List.toFinset_card_of_nodup h.listed, Finset.card_range] at hcard
  omega

/-- A frozen slab is on no list. -/
theorem frozen_not_listed (h : Accounts s t b) (hfrozen : b.frozen = some page) :
    page ∉ t.partialList := fun hin => ((h.mem_listed page).mp hin).2.1 hfrozen

/-- The frozen slab of an idle cpu goes to the partial list if it has a free object. -/
theorem thaw (hs : SinglePage s) (h : Accounts s t b) (hfrozen : b.frozen = some page)
    (hlocked : b.locked = some page) (hcpu : b.cpu = []) (hbroken : u.broken = false)
    (htaken : u.taken = t.taken) (hmemory : u.memory = t.memory)
    (hfreelist : u.cpuFreelist = t.cpuFreelist) (hnode : u.cpuNode = t.cpuNode)
    (hpages : u.pages = Function.update t.pages page
      { t.pages page with frozen := false, locked := false })
    (hlist : u.partialList.Perm
      (if b.free page = [] then t.partialList else page :: t.partialList))
    (hcounted : u.nrPartial = u.partialList.length)
    (hroom : (t.pages page).inuse = 0 → t.nrPartial < s.minPartial) :
    Accounts s u { b with frozen := none, locked := none } := by
  have hin := h.frozen page hfrozen
  have hp := h.page page hin
  have hself : u.pages page = { t.pages page with frozen := false, locked := false } := by
    rw [hpages, Function.update_self]
  have hkept : ∀ q, q ≠ page → u.pages q = t.pages q :=
    fun q hq => by rw [hpages, Function.update_of_ne hq]
  have hone : ∀ q, q ≠ page → ¬some page = some q := fun q hq hsome => hq (Option.some.inj hsome).symm
  have hothers := others (u := u) (c := { b with frozen := none, locked := none }) hs h hkept
    (fun q _ _ x _ a _ _ => by rw [hmemory]) (fun _ _ => .rfl)
    (fun q hq => by rw [Books.cpuOn, Books.cpuOn, hcpu, ite_self, ite_self]) (fun _ _ => rfl)
    (fun q hq => ⟨fun hsome => (by cases hsome), fun hsome => absurd (hfrozen ▸ hsome) (hone q hq)⟩)
    (fun q hq => ⟨fun hsome => (by cases hsome), fun hsome => absurd (hlocked ▸ hsome) (hone q hq)⟩)
  have hnot := frozen_not_listed h hfrozen
  refine
    { sound := hbroken
      nodup := htaken ▸ h.nodup
      page := fun q hq => ?_
      live := htaken ▸ h.live
      cpuStack := ?_
      frozen := fun q hq => (by cases hq)
      idle := fun _ => hcpu
      listed := ?_
      mem_listed := fun q => ?_
      counted := hcounted
      node := hnode ▸ h.node
      empties := ?_ }
  · by_cases hq' : q = page
    · subst hq'
      refine ⟨hp.addressable, ?_, ?_, ?_, ?_, ?_, ?_, ?_, ?_⟩
      · rw [hself, hp.slab]
      · rw [hself, hp.objects]
      · rw [hself, hp.inuse]
      · rw [hself, hmemory]
        exact hp.stack
      · have hsplit := hp.split
        rw [Books.cpuOn, hcpu, ite_self] at hsplit ⊢
        exact hsplit
      · rw [hself]
        rfl
      · rw [hself]
        rfl
      · rw [hself, hp.pageSlab]
    · exact hothers q (htaken ▸ hq) hq'
  · rw [hmemory, hfreelist]
    exact h.cpuStack
  · rw [hlist.nodup_iff]
    split
    · exact h.listed
    · exact List.nodup_cons.mpr ⟨hnot, h.listed⟩
  · rw [hlist.mem_iff, htaken]
    by_cases hq : q = page
    · subst hq
      by_cases hnil : b.free q = []
      · rw [if_pos hnil]
        exact ⟨fun hmem => absurd hmem hnot, fun hmem => absurd hnil hmem.2.2⟩
      · rw [if_neg hnil]
        exact ⟨fun _ => ⟨hin, (Option.some_ne_none q).symm, hnil⟩, fun _ => List.mem_cons_self⟩
    · have hmem : q ∈ (if b.free page = [] then t.partialList else page :: t.partialList) ↔
          q ∈ t.partialList := by
        split
        · exact Iff.rfl
        · rw [List.mem_cons, or_iff_right hq]
      rw [hmem, h.mem_listed q, hfrozen]
      exact ⟨fun hleft => ⟨hleft.1, (Option.some_ne_none q).symm, hleft.2.2⟩,
        fun hright => ⟨hright.1, hone q hq, hright.2.2⟩⟩
  · have hsame : ∀ q ∈ t.partialList, (u.pages q).inuse = (t.pages q).inuse := by
      intro q hq
      rw [hkept q fun heq => hnot (heq ▸ hq)]
    have hold : t.partialList.filter (fun q => (u.pages q).inuse = 0) = emptySlabs t :=
      List.filter_congr fun q hq => by rw [hsame q hq]
    have hlen := (hlist.filter fun q => decide ((u.pages q).inuse = 0)).length_eq
    rw [emptySlabs, hlen]
    by_cases hnil : b.free page = []
    · rw [if_pos hnil, hold]
      exact h.empties
    · rw [if_neg hnil, List.filter_cons, hold, hself]
      by_cases hzero : (t.pages page).inuse = 0
      · have hroom' := hroom hzero
        have hle : (emptySlabs t).length ≤ t.partialList.length := List.length_filter_le _ _
        rw [h.counted] at hroom'
        rw [if_pos (decide_eq_true hzero), List.length_cons]
        omega
      · rw [if_neg (by simpa using hzero)]
        exact h.empties

/-- A slab without live objects is given back, and the others stay as they are. -/
theorem retire (hs : SinglePage s) (h : Accounts s t b) (hbroken : u.broken = false)
    (htaken : u.taken = t.taken.erase page) (hpages : ∀ q, q ≠ page → u.pages q = t.pages q)
    (hmemory : ∀ q ∈ t.taken, q ≠ page → ∀ x ∈ b.free q, Same t.memory u.memory x (slotSize s))
    (hliveOn : ∀ q, q ≠ page → (c.liveOn q).Perm (b.liveOn q))
    (hlive : ∀ x ∈ c.live, x / pageSize ∈ t.taken ∧ x / pageSize ≠ page)
    (hcpuOn : ∀ q, q ≠ page → c.cpuOn q = b.cpuOn q)
    (hfree : ∀ q, q ≠ page → c.free q = b.free q)
    (hfrozen : ∀ q, q ≠ page → (c.frozen = some q ↔ b.frozen = some q))
    (hthawed : c.frozen ≠ some page)
    (hlocked : ∀ q, q ≠ page → (c.locked = some q ↔ b.locked = some q))
    (hcpu : Linked u.memory (slotOffset s) u.cpuFreelist c.cpu)
    (hidle : c.frozen = none → c.cpu = []) (hnode : u.cpuNode = 0)
    (hlist : u.partialList = t.partialList.erase page)
    (hcounted : u.nrPartial = u.partialList.length) : Accounts s u c := by
  have hothers := others hs h hpages hmemory hliveOn hcpuOn hfree hfrozen hlocked
  have hmem : ∀ q, q ∈ u.taken ↔ q ≠ page ∧ q ∈ t.taken := fun q => by
    rw [htaken]
    exact h.nodup.mem_erase_iff
  refine
    { sound := hbroken
      nodup := htaken ▸ h.nodup.erase page
      page := fun q hq => hothers q ((hmem q).mp hq).2 ((hmem q).mp hq).1
      live := fun x hx => (hmem _).mpr (hlive x hx).symm
      cpuStack := hcpu
      frozen := fun q hq => ?_
      idle := hidle
      listed := hlist ▸ h.listed.erase page
      mem_listed := fun q => ?_
      counted := hcounted
      node := hnode
      empties := ?_ }
  · have hne : q ≠ page := fun heq => hthawed (heq ▸ hq)
    exact (hmem q).mpr ⟨hne, h.frozen q ((hfrozen q hne).mp hq)⟩
  · rw [hlist, h.listed.mem_erase_iff, hmem q, h.mem_listed q]
    by_cases hq : q = page
    · simp only [hq, ne_eq, not_true_eq_false, false_and]
    · have hiff : b.frozen ≠ some q ↔ c.frozen ≠ some q := not_congr (hfrozen q hq).symm
      rw [hfree q hq, hiff, and_assoc]
  · have hsub : (emptySlabs u).length ≤ (emptySlabs t).length := by
      rw [emptySlabs, emptySlabs, hlist]
      have hsame : (t.partialList.erase page).filter (fun q => decide ((u.pages q).inuse = 0)) =
          (t.partialList.erase page).filter fun q => decide ((t.pages q).inuse = 0) :=
        List.filter_congr fun q hq => by
          rw [hpages q (h.listed.mem_erase_iff.mp hq).1]
      rw [hsame]
      exact (List.erase_sublist.filter _).length_le
    exact hsub.trans h.empties

/-- `add_partial` adds the slab at one of the ends. -/
theorem addPartial_perm (t : SlubState) (page : ℕ) (tail : Bool) :
    (addPartial t page tail).partialList.Perm (page :: t.partialList) := by
  cases tail with
  | true => exact List.perm_append_singleton page t.partialList
  | false => exact .rfl

/-- `add_partial` counts the slab. -/
theorem addPartial_counted (h : Accounts s t b) (tail : Bool) :
    (addPartial t page tail).nrPartial = (addPartial t page tail).partialList.length := by
  have hlen := listed_length h
  rw [(addPartial_perm t page tail).length_eq, List.length_cons, ← h.counted]
  rw [← h.counted] at hlen
  exact wrap_of_lt (by omega)

/-- `discard_slab` of a page of the cache. -/
theorem discardSlab_eq (hs : SinglePage s) (hin : page ∈ t.taken) : discardSlab s t page =
    { t.setDesc page { t.pages page with pageSlab := false } with
      taken := t.taken.erase page } := by
  rw [discardSlab, if_neg (not_not.mpr hs.atOnce), if_pos hin]

/-- A state in which the memory is the same and at most one page of the cache differs. -/
theorem quiet_page (h : page ∈ t.taken) {live : List ℕ} (hmemory : u.memory = t.memory)
    (hpages : ∀ q, q ≠ page → u.pages q = t.pages q) : Quiet s live t.taken t u :=
  ⟨fun q hq => hpages q fun heq => hq (heq ▸ h), fun a _ => by rw [hmemory]⟩

/-- The state that `unfreeze_slab` leaves, by what is left of the slab. -/
theorem unfreezeSlab_accounts (hs : SinglePage s) (h : Accounts s t b)
    (hfrozen : b.frozen = some page) (hlocked : b.locked = some page) (hcpu : b.cpu = [])
    (tail : Bool) :
    Accounts s (unfreezeSlab s t page tail) { b with frozen := none, locked := none } ∧
      Quiet s b.live t.taken t (unfreezeSlab s t page tail) ∧
      (unfreezeSlab s t page tail).cpuPage = t.cpuPage ∧
      ((unfreezeSlab s t page tail).taken = t.taken ∨
        (unfreezeSlab s t page tail).taken = t.taken.erase page ∧ b.liveOn page = []) := by
  have hin := h.frozen page hfrozen
  have hp := h.page page hin
  have hused := used_eq hp
  have hnil := hp.stack.nil_iff
  have hpos := hs.pos
  have hinuse := hp.inuse
  have hnot := frozen_not_listed h hfrozen
  have hone : ∀ q, q ≠ page → ¬some page = some q := fun q hq hsome => hq (Option.some.inj hsome).symm
  rw [Books.cpuOn, hcpu, ite_self, List.length_nil, Nat.add_zero] at hused
  rw [unfreezeSlab]
  simp only [setDesc_pages, Function.update_self]
  by_cases hsome : (t.pages page).inuse ≠ 0
  · rw [if_pos hsome]
    by_cases hlist : (t.pages page).freelist ≠ 0
    · have hsingle : b.free page ≠ [] := fun hempty => hlist (hnil.mp hempty)
      rw [if_pos hlist]
      refine ⟨thaw hs h hfrozen hlocked hcpu h.sound rfl rfl rfl rfl ?_ ?_
        (addPartial_counted h tail) fun hzero => absurd hzero hsome,
        quiet_page hin rfl fun q hq => ?_, rfl, .inl rfl⟩
      · simp only [slabUnlock, addPartial, setDesc_pages, Function.update_self, Function.update_idem]
      · rw [if_neg hsingle]
        exact addPartial_perm t page tail
      · simp only [slabUnlock, addPartial, setDesc_pages, Function.update_of_ne hq]
    · have hempty : b.free page = [] := hnil.mpr (not_not.mp hlist)
      rw [if_neg hlist]
      refine ⟨thaw hs h hfrozen hlocked hcpu h.sound rfl rfl rfl rfl ?_ ?_ h.counted
        fun hzero => absurd hzero hsome, quiet_page hin rfl fun q hq => ?_, rfl, .inl rfl⟩
      · simp only [slabUnlock, setDesc_pages, Function.update_self, Function.update_idem]
      · rw [if_pos hempty]
        exact .rfl
      · simp only [slabUnlock, setDesc_pages, Function.update_of_ne hq]
  · have hzero := not_not.mp hsome
    have hsingle : b.free page ≠ [] := by
      intro hempty
      rw [hempty, List.length_nil] at hinuse
      omega
    have hnone : b.liveOn page = [] := List.eq_nil_of_length_eq_zero (by omega)
    rw [if_neg hsome, setDesc_nrPartial]
    by_cases hroom : t.nrPartial < s.minPartial
    · rw [if_pos hroom]
      refine ⟨thaw hs h hfrozen hlocked hcpu h.sound rfl rfl rfl rfl ?_ ?_
        (addPartial_counted h true) fun _ => hroom, quiet_page hin rfl fun q hq => ?_, rfl, .inl rfl⟩
      · simp only [slabUnlock, addPartial, setDesc_pages, Function.update_self, Function.update_idem]
      · rw [if_neg hsingle]
        exact addPartial_perm t page true
      · simp only [slabUnlock, addPartial, setDesc_pages, Function.update_of_ne hq]
    · rw [if_neg hroom, discardSlab_eq hs (by exact hin)]
      refine ⟨@retire s t _ b _ page hs h h.sound rfl (fun q hq => ?_) (fun q _ _ x _ a _ _ => rfl)
        (fun _ _ => .rfl) (fun x hx => ⟨h.live x hx, fun heq => ?_⟩) (fun q hq => ?_)
        (fun _ _ => rfl) (fun q hq => ?_) (Option.some_ne_none page).symm (fun q hq => ?_) h.cpuStack
        (fun _ => hcpu) h.node (List.erase_of_not_mem hnot).symm h.counted, quiet_page hin rfl fun q hq => ?_, rfl,
        .inr ⟨rfl, hnone⟩⟩
      · simp only [slabUnlock, setDesc_pages, Function.update_of_ne hq]
      · have hmem : x ∈ b.liveOn page := mem_liveOn.mpr ⟨hx, heq⟩
        rw [hnone] at hmem
        cases hmem
      · rw [Books.cpuOn, Books.cpuOn, hcpu, ite_self, ite_self]
      · exact ⟨fun hmem => (by cases hmem), fun hmem => absurd (hfrozen ▸ hmem) (hone q hq)⟩
      · exact ⟨fun hmem => (by cases hmem), fun hmem => absurd (hlocked ▸ hmem) (hone q hq)⟩
      · simp only [slabUnlock, setDesc_pages, Function.update_of_ne hq]

/-- The page that the cpu points to is not in the books of lists. -/
theorem setCpuPage_accounts (hs : SinglePage s) (h : Accounts s t b) (p : Option ℕ) :
    Accounts s { t with cpuPage := p } b where
  sound := h.sound
  nodup := h.nodup
  page := fun q hq => (h.page q hq).congr hs rfl (fun _ _ _ _ _ => rfl) .rfl rfl rfl Iff.rfl Iff.rfl
  live := h.live
  cpuStack := h.cpuStack
  frozen := h.frozen
  idle := h.idle
  listed := h.listed
  mem_listed := h.mem_listed
  counted := h.counted
  node := h.node
  empties := h.empties

/-- The cpu has few objects. -/
theorem cpu_length (hs : SinglePage s) (h : Accounts s t b) : b.cpu.length < 2 ^ 16 := by
  cases hfrozen : b.frozen with
  | none =>
    rw [h.idle hfrozen]
    decide
  | some page =>
    have hall := (h.page page (h.frozen page hfrozen)).split.length_eq
    have hfew := hs.few
    rw [List.length_append, List.length_append, slabObjects_length, Books.cpuOn, if_pos hfrozen] at hall
    omega

/-- The books when the objects of the cpu went back to its slab. -/
def Books.idle (b : Books) (page : ℕ) (cells : List ℕ) : Books :=
  { b with cpu := [], free := Function.update b.free page cells, frozen := none, locked := none }

/-- `deactive_slab` of the locked slab of the cpu. -/
theorem deactiveSlab_accounts (hs : SinglePage s) (h : Accounts s t b)
    (hcurrent : t.cpuPage = some page) (hfrozen : b.frozen = some page)
    (hlocked : b.locked = some page) :
    ∃ cells, cells.Perm (b.cpu ++ b.free page) ∧
      Accounts s (deactiveSlab s t) (Books.idle b page cells) ∧
      Quiet s b.live t.taken t (deactiveSlab s t) ∧ (deactiveSlab s t).cpuPage = none ∧
      ((deactiveSlab s t).taken = t.taken ∨
        (deactiveSlab s t).taken = t.taken.erase page ∧ b.liveOn page = []) := by
  obtain ⟨cells, hperm, hmerged, hquiet, htaken⟩ :=
    mergeFreelist_accounts hs (2 ^ 16) true t b h hfrozen (cpu_length hs h)
  obtain ⟨haccounts, hlater, hcpuPage, hpages⟩ := unfreezeSlab_accounts hs
    (setCpuPage_accounts hs hmerged none) hfrozen hlocked rfl (mergeFreelist s page (2 ^ 16) true t).1
  have hout : deactiveSlab s t = unfreezeSlab s
      { (mergeFreelist s page (2 ^ 16) true t).2 with cpuPage := none } page
      (mergeFreelist s page (2 ^ 16) true t).1 := by
    rw [deactiveSlab, hcurrent]
  rw [hout]
  refine ⟨cells, hperm, haccounts, ?_, hcpuPage, ?_⟩
  · have hsame : Quiet s b.live t.taken (mergeFreelist s page (2 ^ 16) true t).2
        { (mergeFreelist s page (2 ^ 16) true t).2 with cpuPage := none } :=
      ⟨fun _ _ => rfl, fun _ _ => rfl⟩
    exact (hquiet.trans hsame).trans (htaken ▸ hlater)
  · rw [← htaken]
    exact hpages

/-- What stays when the slab of the cpu is given up. -/
structure Flushed (s : CacheDesc) (t : SlubState) (b : Books) (u : SlubState) (c : Books) : Prop where
  /-- The books are kept. -/
  settled : Settled s u c
  /-- The cpu has no slab. -/
  frozen : c.frozen = none
  /-- The live objects are the same. -/
  live : c.live = b.live
  /-- Nothing else changes. -/
  quiet : Quiet s b.live t.taken t u
  /-- No page is taken. -/
  taken : u.taken ⊆ t.taken

/-- `flush_all`. -/
theorem flushAll_settled (hs : SinglePage s) (h : Settled s t b) :
    ∃ c, Flushed s t b (flushAll s t) c := by
  rw [flushAll]
  cases hcurrent : t.cpuPage with
  | none => exact ⟨b, h, by rw [← h.current, hcurrent], rfl, .refl, fun _ hq => hq⟩
  | some page =>
    have hfrozen : b.frozen = some page := by rw [← h.current, hcurrent]
    have hin := h.frozen page hfrozen
    obtain ⟨heq, hlock⟩ := slabLock_accounts hs h.toAccounts hin h.unlocked
    obtain ⟨cells, -, haccounts, hquiet, hidle, htaken⟩ :=
      deactiveSlab_accounts hs hlock (by rw [heq]; exact hcurrent) hfrozen rfl
    have hout : flushSlab s t = deactiveSlab s (slabLock t page) := by rw [flushSlab, hcurrent]
    rw [Option.isSome_some, if_pos rfl, hout]
    have hsame : (slabLock t page).taken = t.taken := by rw [heq]; rfl
    rw [hsame] at hquiet htaken
    refine ⟨_, ⟨haccounts, rfl, hidle⟩, rfl, rfl, (quiet_page hin ?_ fun q hq => ?_).trans hquiet, ?_⟩
    · rw [heq]
      rfl
    · rw [heq, setDesc_pages, Function.update_of_ne hq]
    · rcases htaken with hall | ⟨hless, -⟩
      · rw [hall]
        exact fun _ hq => hq
      · rw [hless]
        exact List.erase_subset

end BiscuitOS.SlubCacheSteps
