import BiscuitOS.SlubCacheSteps

/-!
# Handing out an object

`__slab_alloc` looks for an object in the slab of the cpu, then in the first
slab of the partial list, and asks the page allocator only when no slab of the
cache has a free object.
-/

namespace BiscuitOS.SlubCacheAlloc

open MachineWord ByteMemory LinkedCells LoopRun SlubLayout SlubCacheModel SlubCacheBooks
  SlubCacheSteps

variable {s : CacheDesc} {t u : SlubState} {b c : Books} {page x : ℕ} {first second : Option ℕ}

/-- A page that the page allocator may grant to the cache. -/
structure Fresh (t : SlubState) (page : ℕ) : Prop where
  /-- It has an address. -/
  addressable : Addressable page
  /-- It is not with the cache. -/
  notTaken : page ∉ t.taken
  /-- It is not locked. -/
  unlocked : (t.pages page).locked = false

/-- No slab has a free object. -/
def NoneFree (t : SlubState) (b : Books) : Prop := b.cpu = [] ∧ ∀ page ∈ t.taken, b.free page = []

/-- The books when an object was taken from the list of the slab of the cpu. -/
def Books.loaded (b : Books) (page x : ℕ) (rest : List ℕ) : Books :=
  { b with
    live := x :: b.live
    cpu := rest
    free := Function.update b.free page []
    locked := none }

/-- The end of `__slab_alloc`. -/
theorem loadFreelist_settled (hs : SinglePage s) (h : Accounts s t b)
    (hcurrent : t.cpuPage = some page) (hfrozen : b.frozen = some page)
    (hlocked : b.locked = some page) (hcpu : b.cpu = []) (hne : (t.pages page).freelist ≠ 0) :
    ∃ rest, b.free page = (t.pages page).freelist :: rest ∧
      Settled s (loadFreelist s t page).2 (Books.loaded b page (t.pages page).freelist rest) ∧
      Quiet s b.live t.taken t (loadFreelist s t page).2 ∧
      (loadFreelist s t page).2.taken = t.taken := by
  have hin := h.frozen page hfrozen
  have hp := h.page page hin
  obtain ⟨rest, hfree, hrest⟩ := hp.stack.pop hne
  have hobject : (t.pages page).freelist ∈ slabObjects s page :=
    h.free_object hin (hfree ▸ List.mem_cons_self)
  have hpage := slabObjects_page hs hobject
  obtain ⟨mid, hmid⟩ : ∃ mid, mid = { t.setDesc page
      { t.pages page with inuse := (t.pages page).objects, freelist := 0 } with
    cpuFreelist := getFreepointer s.toKmemCache t.memory (t.pages page).freelist, cpuNode := 0 } :=
    ⟨_, rfl⟩
  have hself : mid.pages page =
      { t.pages page with inuse := (t.pages page).objects, freelist := 0 } := by
    rw [hmid]
    exact Function.update_self ..
  have hkept : ∀ q, q ≠ page → mid.pages q = t.pages q := fun q hq => by
    rw [hmid]
    exact Function.update_of_ne hq _ _
  have hmemory : mid.memory = t.memory := by rw [hmid]; rfl
  have htaken : mid.taken = t.taken := by rw [hmid]; rfl
  have hout : (loadFreelist s t page).2 = slabUnlock mid page := by rw [loadFreelist, hmid]
  have hmoved : Accounts s mid { Books.loaded b page (t.pages page).freelist rest with
      locked := some page } := by
    refine adjust hs h hfrozen (by rw [hmid]; exact h.sound) htaken (by rw [hmid]; rfl)
      (by rw [hmid]; rfl) rfl hkept (fun q _ _ y _ a _ _ => by rw [hmemory]) (fun q hq => ?_)
      (fun q hq => Function.update_of_ne hq _ _) (fun q _ => by rw [hlocked]) ?_ (fun y hy => ?_)
      ?_ (by rw [hmid])
    · have hcons := liveOn_cons b (t.pages page).freelist q
      rw [hpage, if_neg (Ne.symm hq)] at hcons
      exact List.Perm.of_eq hcons
    · refine ⟨hp.addressable, ?_, ?_, ?_, ?_, ?_, ?_, ?_, ?_⟩
      · rw [hself, hp.slab]
      · rw [hself, hp.objects]
      · rw [hself]
        simp only [Books.loaded, Function.update_self, List.length_nil]
        rw [hp.objects, Nat.add_zero]
      · rw [hself]
        simp only [Books.loaded, Function.update_self, linked_nil]
      · have hcons := liveOn_cons b (t.pages page).freelist page
        rw [hpage, if_pos rfl] at hcons
        have hsplit := hp.split
        rw [Books.cpuOn, hcpu, ite_self, hfree] at hsplit
        refine List.Perm.trans ?_ hsplit
        have hlive : Books.liveOn { Books.loaded b page (t.pages page).freelist rest with
            locked := some page } page = (t.pages page).freelist :: b.liveOn page := hcons
        rw [hlive, Books.cpuOn, Books.loaded]
        simp only [hfrozen, if_true, Function.update_self]
        rw [List.perm_iff_count]
        intro a
        simp only [List.count_append, List.count_cons, List.count_nil]
        omega
      · rw [hself, hp.frozen]
        rfl
      · rw [hself, hp.locked, hlocked]
      · rw [hself, hp.pageSlab]
    · rcases List.mem_cons.mp hy with heq | hy
      · rw [heq, hpage]
        exact hin
      · exact h.live y hy
    · rw [hmid]
      exact hrest
  have hin' : page ∈ mid.taken := htaken ▸ hin
  refine ⟨rest, hfree, ⟨?_, rfl, ?_⟩, ?_, ?_⟩
  · rw [hout]
    exact slabUnlock_accounts hs hmoved hin' rfl
  · rw [hout, hmid]
    exact hcurrent.trans hfrozen.symm
  · rw [hout]
    refine quiet_page hin (by rw [← hmemory]; rfl) fun q hq => ?_
    rw [slabUnlock, setDesc_pages, Function.update_of_ne hq, hkept q hq]
  · rw [hout]
    exact htaken

/-- `lock_and_freeze_slab`. -/
theorem lockAndFreezeSlab_accounts (hs : SinglePage s) (h : Accounts s t b) (hidle : b.frozen = none)
    (hunlocked : b.locked = none) (hmem : page ∈ t.partialList) :
    Accounts s (lockAndFreezeSlab t page) { b with frozen := some page, locked := some page } ∧
      Quiet s b.live t.taken t (lockAndFreezeSlab t page) ∧
      (lockAndFreezeSlab t page).taken = t.taken := by
  obtain ⟨hin, -, hsome⟩ := (h.mem_listed page).mp hmem
  have hp := h.page page hin
  have hcpu := h.idle hidle
  have hlen := listed_length h
  have hcount : 0 < t.partialList.length := List.length_pos_of_mem hmem
  have hless : wrapSub 64 t.nrPartial 1 = t.partialList.length - 1 := by
    rw [h.counted]
    exact wrapSub_of_le (by omega) hcount
  obtain ⟨hlock, -⟩ := slabLock_accounts hs h hin hunlocked
  have heq : lockAndFreezeSlab t page =
      { t.setDesc page { t.pages page with frozen := true, locked := true } with
        partialList := t.partialList.erase page
        nrPartial := t.partialList.length - 1 } := by
    rw [lockAndFreezeSlab, hlock, removePartial, setDesc_partialList, if_pos hmem]
    simp only [SlubState.setDesc, Function.update_self, Function.update_idem, hless]
  have hself : (lockAndFreezeSlab t page).pages page =
      { t.pages page with frozen := true, locked := true } := by
    rw [heq]
    exact Function.update_self ..
  have hkept : ∀ q, q ≠ page → (lockAndFreezeSlab t page).pages q = t.pages q := fun q hq => by
    rw [heq]
    exact Function.update_of_ne hq _ _
  have hmemory : (lockAndFreezeSlab t page).memory = t.memory := by rw [heq]; rfl
  have htaken : (lockAndFreezeSlab t page).taken = t.taken := by rw [heq]; rfl
  have hlist : (lockAndFreezeSlab t page).partialList = t.partialList.erase page := by rw [heq]
  have hone : ∀ q, q ≠ page → ¬some page = some q := fun q hq hsome => hq (Option.some.inj hsome).symm
  have hothers := others (u := lockAndFreezeSlab t page)
    (c := { b with frozen := some page, locked := some page }) hs h hkept
    (fun q _ _ y _ a _ _ => by rw [hmemory]) (fun _ _ => .rfl)
    (fun q hq => by rw [Books.cpuOn, Books.cpuOn, hcpu, ite_self, ite_self]) (fun _ _ => rfl)
    (fun q hq => ⟨fun hq' => absurd hq' (hone q hq), fun hq' => (by rw [hidle] at hq'; cases hq')⟩)
    (fun q hq => ⟨fun hq' => absurd hq' (hone q hq),
      fun hq' => (by rw [hunlocked] at hq'; cases hq')⟩)
  refine ⟨?_, quiet_page hin hmemory hkept, htaken⟩
  refine
    { sound := by rw [heq]; exact h.sound
      nodup := htaken ▸ h.nodup
      page := fun q hq => ?_
      live := htaken ▸ h.live
      cpuStack := by rw [heq]; exact h.cpuStack
      frozen := fun q hq => ?_
      idle := fun hnone => (by cases hnone)
      listed := hlist ▸ h.listed.erase page
      mem_listed := fun q => ?_
      counted := by rw [heq]; exact (List.length_erase_of_mem hmem).symm
      node := by rw [heq]; exact h.node
      empties := ?_ }
  · by_cases hq' : q = page
    · subst hq'
      refine ⟨hp.addressable, ?_, ?_, ?_, ?_, ?_, ?_, ?_, ?_⟩
      · rw [hself, hp.slab]
      · rw [hself, hp.objects]
      · rw [hself, hp.inuse]
      · rw [hself, hmemory]
        exact hp.stack
      · have hsplit := hp.split
        rw [Books.cpuOn, hcpu, ite_self] at hsplit ⊢
        exact hsplit
      · rw [hself]
        exact (decide_eq_true rfl).symm
      · rw [hself]
        exact (decide_eq_true rfl).symm
      · rw [hself, hp.pageSlab]
    · exact hothers q (htaken ▸ hq) hq'
  · rw [htaken, ← Option.some.inj hq]
    exact hin
  · rw [hlist, h.listed.mem_erase_iff, htaken, h.mem_listed q, hidle]
    by_cases hq : q = page
    · simp only [hq, ne_eq, not_true_eq_false, false_and, and_false]
    · have hother := hone q hq
      simp only [ne_eq, hq, hother, not_false_eq_true, true_and, reduceCtorEq]
  · have hsame : emptySlabs (lockAndFreezeSlab t page) =
        (t.partialList.erase page).filter fun q => decide ((t.pages q).inuse = 0) := by
      rw [emptySlabs, hlist]
      exact List.filter_congr fun q hq => by
        rw [hkept q (h.listed.mem_erase_iff.mp hq).1]
    rw [hsame]
    exact ((List.erase_sublist.filter _).length_le).trans h.empties

/-- `get_partial` gives the first slab of the list. -/
theorem getPartial_cons (h : Accounts s t b) (hunlocked : b.locked = none) {rest : List ℕ}
    (hlist : t.partialList = page :: rest) : getPartial t = some (page, lockAndFreezeSlab t page) := by
  have hin := ((h.mem_listed page).mp (hlist ▸ List.mem_cons_self)).1
  have hfree : (t.pages page).locked = false := by
    rw [(h.page page hin).locked, hunlocked]
    rfl
  have hcount : t.nrPartial ≠ 0 := by
    rw [h.counted, hlist]
    exact Nat.succ_ne_zero _
  rw [getPartial, if_neg hcount, hlist, List.find?_cons, hfree]
  rfl

/-- `get_partial` gives nothing when the list is empty. -/
theorem getPartial_nil (h : Accounts s t b) (hlist : t.partialList = []) : getPartial t = none := by
  rw [getPartial, if_pos]
  rw [h.counted, hlist]
  rfl

/-- What `takeSlab` makes of a page from `new_slab`. -/
structure NewSlab (s : CacheDesc) (t u : SlubState) (page : ℕ) : Prop where
  /-- The page is full of free objects. -/
  desc : u.pages page = { t.pages page with
    slab := s.index
    objects := perPage s
    inuse := 0
    freelist := (u.pages page).freelist
    frozen := true
    locked := true
    pageSlab := true }
  /-- They are on its list. -/
  stack : Linked u.memory (slotOffset s) (u.pages page).freelist (slabObjects s page)
  /-- Other pages are as they were. -/
  kept : ∀ q, q ≠ page → u.pages q = t.pages q
  /-- Their bytes too. -/
  memory : ∀ a, a / pageSize ≠ page → u.memory a = t.memory a
  /-- The rest of the state. -/
  rest : u = { t with
    pages := u.pages
    memory := u.memory
    taken := page :: t.taken
    cpuPage := some page }

/-- A page from the page allocator becomes the slab of the cpu. -/
theorem takeSlab_new (hs : SinglePage s) (hcurrent : t.cpuPage = none)
    (hfresh : ∀ q, (first <|> second) = some q → Fresh t q) {v : SlubState}
    (hnew : newSlabPage s t first second = some (page, v)) :
    (first <|> second) = some page ∧ NewSlab s t (takeSlab s v page) page := by
  rw [newSlabPage, Option.map_eq_some_iff] at hnew
  obtain ⟨⟨d, m⟩, hslab, hpair⟩ := hnew
  obtain ⟨fresh, hanswer, hstart, hobjects, hinuse, hstack, houtside⟩ :=
    newSlab_objects hs hslab fun q hq => (hfresh q hq).addressable
  have hpage : d.start / pageSize = fresh := by
    rw [hstart]
    exact Nat.mul_div_cancel fresh (by decide)
  dsimp only at hpair
  rw [hpage, Prod.mk.injEq] at hpair
  obtain ⟨rfl, hv⟩ := hpair
  have heq : takeSlab s v fresh = { t.setDesc fresh
      { t.pages fresh with
        slab := s.index
        objects := d.objects
        inuse := d.inuse
        freelist := d.freelist
        frozen := true
        locked := true
        pageSlab := true } with
      memory := m
      taken := fresh :: t.taken
      cpuPage := some fresh } := by
    rw [← hv, takeSlab]
    simp only [hcurrent, Option.isSome_none, Bool.false_eq_true, if_false, slabLock,
      Function.update_self, (hfresh fresh hanswer).unlocked, SlubState.setDesc, Function.update_idem]
  have hself : (takeSlab s v fresh).pages fresh = { t.pages fresh with
      slab := s.index
      objects := d.objects
      inuse := d.inuse
      freelist := d.freelist
      frozen := true
      locked := true
      pageSlab := true } := by
    rw [heq]
    exact Function.update_self ..
  refine ⟨hanswer, ⟨?_, ?_, fun q hq => ?_, fun a ha => ?_, ?_⟩⟩
  · rw [hself, hobjects, hinuse]
  · rw [hself, heq]
    exact hstack
  · rw [heq]
    exact Function.update_of_ne hq _ _
  · rw [heq]
    refine houtside a ?_
    by_contra hin
    refine ha (Nat.div_eq_of_lt_le (by omega) ?_)
    rw [Nat.succ_mul]
    omega
  · rw [heq]
    rfl

/-- Objects of other pages keep their bytes. -/
theorem NewSlab.slot (h : NewSlab s t u page) {q y : ℕ} (hne : q ≠ page)
    (hy : y ∈ slabObjects s q) : Same t.memory u.memory y (slotSize s) := by
  intro a hlow hhigh
  have hin := slabObjects_inside hy
  refine h.memory a fun ha => hne ?_
  rw [← ha]
  refine (Nat.div_eq_of_lt_le (by omega) ?_).symm
  rw [Nat.succ_mul]
  omega

/-- The books when a slab is new. -/
def Books.renewed (s : CacheDesc) (b : Books) (page : ℕ) : Books :=
  { b with
    frozen := some page
    locked := some page
    free := Function.update b.free page (slabObjects s page) }

/-- The new slab agrees with the books. -/
theorem NewSlab.pageAccounts (h : NewSlab s t u page) (haddress : Addressable page)
    (hlive : b.liveOn page = []) (hcpu : b.cpu = []) :
    PageAccounts s u (Books.renewed s b page) page := by
  have hfree : (Books.renewed s b page).free page = slabObjects s page := Function.update_self ..
  refine ⟨haddress, ?_, ?_, ?_, ?_, ?_, ?_, ?_, ?_⟩
  · rw [h.desc]
  · rw [h.desc]
  · rw [h.desc, hfree, slabObjects_length]
    exact Nat.zero_add _
  · rw [hfree]
    exact h.stack
  · have hnone : (Books.renewed s b page).liveOn page = [] := hlive
    have hidle : (Books.renewed s b page).cpuOn page = [] := by
      rw [Books.cpuOn, Books.renewed, hcpu, ite_self]
    rw [hnone, hidle, hfree, List.nil_append, List.nil_append]
  · rw [h.desc]
    exact (decide_eq_true rfl).symm
  · rw [h.desc]
    exact (decide_eq_true rfl).symm
  · rw [h.desc]

/-- Nothing outside the new slab changes. -/
theorem NewSlab.quiet (hn : NewSlab s t u page) (h : Accounts s t b) (hnew : page ∉ t.taken) :
    Quiet s b.live (page :: t.taken) t u := by
  refine ⟨fun q hq => hn.kept q fun heq => hq (heq ▸ List.mem_cons_self), fun a ha => ?_⟩
  rcases ha with hout | ⟨y, hy, hlow, hhigh⟩
  · exact hn.memory a fun heq => hout (heq ▸ List.mem_cons_self)
  · have hin := h.live y hy
    exact hn.slot (fun heq => hnew (heq ▸ hin)) (h.live_object hy) a hlow hhigh

/-- The cache with the new slab agrees with the books. -/
theorem NewSlab.accounts (hn : NewSlab s t u page) (hs : SinglePage s) (h : Accounts s t b)
    (hidle : b.frozen = none) (hunlocked : b.locked = none) (haddress : Addressable page)
    (hnew : page ∉ t.taken) : Accounts s u (Books.renewed s b page) := by
  have hcpu := h.idle hidle
  have htaken : u.taken = page :: t.taken := by rw [hn.rest]
  have hlist : u.partialList = t.partialList := by rw [hn.rest]
  have hne : ∀ q ∈ t.taken, q ≠ page := fun q hq heq => hnew (heq ▸ hq)
  have hone : ∀ q, q ≠ page → ¬some page = some q := fun q hq hsome => hq (Option.some.inj hsome).symm
  have hothers := others (u := u) (c := Books.renewed s b page) hs h hn.kept
    (fun q hq hq' y hy => hn.slot hq' (h.free_object hq hy)) (fun _ _ => .rfl)
    (fun q hq => by rw [Books.cpuOn, Books.cpuOn, Books.renewed, hcpu, ite_self, ite_self])
    (fun q hq => Function.update_of_ne hq _ _)
    (fun q hq => ⟨fun hq' => absurd hq' (hone q hq), fun hq' => (by rw [hidle] at hq'; cases hq')⟩)
    (fun q hq => ⟨fun hq' => absurd hq' (hone q hq),
      fun hq' => (by rw [hunlocked] at hq'; cases hq')⟩)
  refine
    { sound := by rw [hn.rest]; exact h.sound
      nodup := htaken ▸ List.nodup_cons.mpr ⟨hnew, h.nodup⟩
      page := fun q hq => ?_
      live := fun y hy => htaken ▸ List.mem_cons_of_mem _ (h.live y hy)
      cpuStack := ?_
      frozen := fun q hq => ?_
      idle := fun hnone => (by cases hnone)
      listed := hlist ▸ h.listed
      mem_listed := fun q => ?_
      counted := by rw [hn.rest]; exact h.counted
      node := by rw [hn.rest]; exact h.node
      empties := ?_ }
  · by_cases hq' : q = page
    · rw [hq']
      refine hn.pageAccounts haddress ?_ hcpu
      rw [Books.liveOn, List.filter_eq_nil_iff]
      intro y hy hy'
      exact hnew (of_decide_eq_true hy' ▸ h.live y hy)
    · rw [htaken] at hq
      exact hothers q (List.mem_of_ne_of_mem hq' hq) hq'
  · have hfreelist : u.cpuFreelist = t.cpuFreelist := by rw [hn.rest]
    have hstack := h.cpuStack
    rw [hcpu, linked_nil] at hstack
    rw [Books.renewed, hcpu, linked_nil, hfreelist]
    exact hstack
  · rw [htaken, ← Option.some.inj hq]
    exact List.mem_cons_self
  · rw [hlist, htaken, h.mem_listed q, hidle, Books.renewed]
    by_cases hq : q = page
    · simp only [hq, hnew, false_and, ne_eq, not_true_eq_false, and_false]
    · have hother := hone q hq
      simp only [ne_eq, hq, hother, not_false_eq_true, true_and, reduceCtorEq, List.mem_cons,
        false_or, Function.update_of_ne hq]
  · have hsame := emptySlabs_congr (t := t) (u := u) hlist fun q hq => by
      rw [hn.kept q (hne q ((h.mem_listed q).mp hq).1)]
    rw [hsame]
    exact h.empties

/-- A page from the page allocator becomes the slab of the cpu, with all its objects free. -/
theorem takeSlab_accounts (hs : SinglePage s) (h : Accounts s t b) (hidle : b.frozen = none)
    (hunlocked : b.locked = none) (hcurrent : t.cpuPage = none)
    (hfresh : ∀ q, (first <|> second) = some q → Fresh t q) {v : SlubState}
    (hnew : newSlabPage s t first second = some (page, v)) :
    (first <|> second) = some page ∧ (takeSlab s v page).cpuPage = some page ∧
      Accounts s (takeSlab s v page) (Books.renewed s b page) ∧
      Quiet s b.live (page :: t.taken) t (takeSlab s v page) ∧
      (takeSlab s v page).taken = page :: t.taken := by
  obtain ⟨hanswer, hn⟩ := takeSlab_new hs hcurrent hfresh hnew
  obtain ⟨haddress, hnot, -⟩ := hfresh page hanswer
  exact ⟨hanswer, by rw [hn.rest], hn.accounts hs h hidle hunlocked haddress hnot,
    hn.quiet h hnot, by rw [hn.rest]⟩

/-- Without a page there is no new slab. -/
theorem newSlabPage_none (h : newSlabPage s t first second = none) : (first <|> second) = none := by
  rw [newSlabPage, Option.map_eq_none_iff, newSlab, Option.map_eq_none_iff] at h
  cases first with
  | some page => cases h
  | none =>
    cases second with
    | some page => cases h
    | none => rfl

/-- What `slab_alloc` promises: an object that was not live, or none if neither the cache nor the
page allocator has one. -/
structure Granted (s : CacheDesc) (first second : Option ℕ) (t : SlubState) (b : Books)
    (r : ℕ × SlubState) (c : Books) : Prop where
  /-- The books are kept. -/
  settled : Settled s r.2 c
  /-- Live objects and the pages of others are left alone. -/
  quiet : Quiet s b.live (t.taken ++ (first <|> second).toList) t r.2
  /-- The answer. -/
  answer : (r.1 ≠ 0 ∧ c.live = r.1 :: b.live ∧ (r.2.taken = t.taken ∨
      ∃ page, (first <|> second) = some page ∧ r.2.taken = page :: t.taken ∧ NoneFree t b)) ∨
    (r.1 = 0 ∧ c.live = b.live ∧ r.2.taken = t.taken ∧ (first <|> second) = none ∧ NoneFree t b)

/-- From the label `load_freelist` with an object on the list of the slab. -/
theorem loop_loadFreelist (fuel : ℕ) (hcurrent : t.cpuPage = some page)
    (hne : (t.pages page).freelist ≠ 0) :
    loop (slabAllocStep s first second) (fuel + 1) (.loadFreelist, t) =
      some (loadFreelist s t page) := by
  refine loop_inr ?_ fuel
  simp only [slabAllocStep, hcurrent, if_neg hne]

/-- `__slab_alloc` from the label `new_slab` on. -/
theorem loop_newSlab (hs : SinglePage s) (h : Accounts s t b) (hidle : b.frozen = none)
    (hunlocked : b.locked = none) (hcurrent : t.cpuPage = none)
    (hfresh : ∀ q, (first <|> second) = some q → Fresh t q) (fuel : ℕ) :
    ∃ r c, loop (slabAllocStep s first second) (fuel + 2) (.newSlab, t) = some r ∧
      Granted s first second t b r c := by
  have hcpu := h.idle hidle
  cases hlist : t.partialList with
  | cons page rest =>
    have hmem : page ∈ t.partialList := hlist ▸ List.mem_cons_self
    obtain ⟨haccounts, hquiet, htaken⟩ := lockAndFreezeSlab_accounts hs h hidle hunlocked hmem
    have hnext : slabAllocStep s first second (.newSlab, t) =
        .inl (.loadFreelist, { lockAndFreezeSlab t page with cpuPage := some page }) := by
      simp only [slabAllocStep, getPartial_cons h hunlocked hlist]
    have hcurrent' := setCpuPage_accounts hs haccounts (some page)
    have hin := hcurrent'.frozen page rfl
    have hsome : b.free page ≠ [] := ((h.mem_listed page).mp hmem).2.2
    have hne : ((lockAndFreezeSlab t page).pages page).freelist ≠ 0 := fun hzero =>
      hsome ((hcurrent'.page page hin).stack.nil_iff.mpr hzero)
    obtain ⟨loaded, -, hsettled, hlater, hkept⟩ :=
      loadFreelist_settled hs hcurrent' rfl rfl rfl hcpu hne
    refine ⟨_, _, by rw [loop_inl hnext]; exact loop_loadFreelist fuel rfl hne, hsettled, ?_, .inl
      ⟨hne, rfl, .inl (hkept.trans htaken)⟩⟩
    have hmoved : Quiet s b.live t.taken t
        { lockAndFreezeSlab t page with cpuPage := some page } := ⟨hquiet.pages, hquiet.memory⟩
    exact (hmoved.trans (htaken ▸ hlater)).mono (fun _ hx => hx) (List.subset_append_left _ _)
  | nil =>
    have hnone : NoneFree t b := by
      refine ⟨hcpu, fun q hq => ?_⟩
      by_contra hsome
      have hmem := (h.mem_listed q).mpr ⟨hq, Books.frozen_ne hidle q, hsome⟩
      rw [hlist] at hmem
      cases hmem
    cases hnew : newSlabPage s t first second with
    | none =>
      have hanswer := newSlabPage_none hnew
      have hnext : slabAllocStep s first second (.newSlab, t) = .inr (0, t) := by
        simp only [slabAllocStep, getPartial_nil h hlist, hnew]
      exact ⟨_, b, loop_inr hnext (fuel + 1), ⟨h, hunlocked, by rw [hcurrent, hidle]⟩, .refl,
        .inr ⟨rfl, rfl, rfl, hanswer, hnone⟩⟩
    | some r =>
      obtain ⟨page, v⟩ := r
      obtain ⟨hanswer, hpage, haccounts, hquiet, htaken⟩ :=
        takeSlab_accounts hs h hidle hunlocked hcurrent hfresh hnew
      have hnext : slabAllocStep s first second (.newSlab, t) =
          .inl (.loadFreelist, takeSlab s v page) := by
        simp only [slabAllocStep, getPartial_nil h hlist, hnew]
      have hin := haccounts.frozen page rfl
      have hne : ((takeSlab s v page).pages page).freelist ≠ 0 := by
        intro hzero
        have hnil := (haccounts.page page hin).stack.nil_iff.mpr hzero
        simp only [Books.renewed, Function.update_self] at hnil
        have hlen := congrArg List.length hnil
        rw [slabObjects_length, List.length_nil] at hlen
        have := hs.pos
        omega
      obtain ⟨loaded, -, hsettled, hlater, hkept⟩ :=
        loadFreelist_settled hs haccounts hpage rfl rfl hcpu hne
      refine ⟨_, _, by rw [loop_inl hnext]; exact loop_loadFreelist fuel hpage hne, hsettled, ?_,
        .inl ⟨hne, rfl, .inr ⟨page, hanswer, hkept.trans htaken, hnone⟩⟩⟩
      refine (hquiet.trans (htaken ▸ hlater)).mono (fun _ hx => hx) ?_
      intro q hq
      rw [hanswer, Option.toList_some, List.mem_append, List.mem_singleton]
      exact (List.mem_cons.mp hq).symm

/-- `__slab_alloc` when the cpu has no object. -/
theorem slabAllocSlow_granted (hs : SinglePage s) (h : Settled s t b) (hcpu : b.cpu = [])
    (hfresh : ∀ q, (first <|> second) = some q → Fresh t q) :
    ∃ c, Granted s first second t b (slabAllocSlow s t first second) c := by
  cases hcurrent : t.cpuPage with
  | none =>
    have hentry : slabAllocEntry t = (.newSlab, t) := by rw [slabAllocEntry, hcurrent]
    obtain ⟨r, c, hrun, hgranted⟩ := loop_newSlab hs h.toAccounts (by rw [← h.current, hcurrent])
      h.unlocked hcurrent hfresh (2 * t.partialList.length + 2)
    refine ⟨c, ?_⟩
    rw [slabAllocSlow, hentry, hrun]
    exact hgranted
  | some page =>
    have hfrozen : b.frozen = some page := by rw [← h.current, hcurrent]
    have hin := h.frozen page hfrozen
    obtain ⟨heq, hlock⟩ := slabLock_accounts hs h.toAccounts hin h.unlocked
    have hentry : slabAllocEntry t = (.loadFreelist, slabLock t page) := by
      rw [slabAllocEntry, hcurrent]
    have hcurrent' : (slabLock t page).cpuPage = some page := by rw [heq]; exact hcurrent
    have hsame : (slabLock t page).taken = t.taken := by rw [heq]; rfl
    have hquiet : Quiet s b.live t.taken t (slabLock t page) := by
      refine quiet_page hin (by rw [heq]; rfl) fun q hq => ?_
      rw [heq, setDesc_pages, Function.update_of_ne hq]
    by_cases hzero : ((slabLock t page).pages page).freelist = 0
    · have hempty : b.free page = [] := (hlock.page page (hsame ▸ hin)).stack.nil_iff.mpr hzero
      obtain ⟨cells, hperm, haccounts, hlater, hnone, htaken⟩ :=
        deactiveSlab_accounts hs hlock hcurrent' hfrozen rfl
      have hcells : cells = [] := by
        have hlen := hperm.length_eq
        rw [List.length_append] at hlen
        simp only [hcpu, hempty, List.length_nil] at hlen
        exact List.eq_nil_of_length_eq_zero hlen
      have hkept : (deactiveSlab s (slabLock t page)).taken = t.taken := by
        rcases htaken with hall | ⟨-, hgone⟩
        · exact hall.trans hsame
        · have hlen := (h.page page hin).split.length_eq
          rw [Books.cpuOn, hcpu, ite_self, hempty, List.append_nil, List.append_nil,
            slabObjects_length] at hlen
          rw [Books.liveOn] at hgone hlen
          rw [hgone, List.length_nil] at hlen
          have := hs.pos
          omega
      have hnext : slabAllocStep s first second (.loadFreelist, slabLock t page) =
          .inl (.newSlab, deactiveSlab s (slabLock t page)) := by
        simp only [slabAllocStep, hcurrent', if_pos hzero]
      rw [hsame] at hlater
      have hmoved := hquiet.trans hlater
      have hbooks : ∀ q, (Books.idle { b with locked := some page } page cells).free q =
          b.free q := by
        intro q
        by_cases hq : q = page
        · rw [hq, hcells]
          exact (Function.update_self ..).trans hempty.symm
        · exact Function.update_of_ne hq _ _
      have hfresh' : ∀ q, (first <|> second) = some q → Fresh (deactiveSlab s (slabLock t page)) q := by
        intro q hq
        obtain ⟨haddress, hnew, hfree⟩ := hfresh q hq
        exact ⟨haddress, hkept.symm ▸ hnew, by rw [hmoved.pages q hnew, hfree]⟩
      obtain ⟨r, c, hrun, hgranted⟩ := loop_newSlab hs haccounts rfl rfl hnone hfresh'
        (2 * t.partialList.length + 1)
      have hfree : NoneFree (deactiveSlab s (slabLock t page))
          (Books.idle { b with locked := some page } page cells) → NoneFree t b :=
        fun hall => ⟨hcpu, fun q hq => (hbooks q).symm.trans (hall.2 q (hkept.symm ▸ hq))⟩
      refine ⟨c, ?_⟩
      rw [slabAllocSlow, hentry, loop_inl hnext, hrun]
      refine ⟨hgranted.settled, (hmoved.mono (fun _ hx => hx) (List.subset_append_left _ _)).trans
        (hkept ▸ hgranted.quiet), ?_⟩
      rcases hgranted.answer with ⟨hx, hlive, hpages⟩ | ⟨hx, hlive, hpages, hno, hall⟩
      · refine .inl ⟨hx, hlive, hpages.imp (fun heq => heq.trans hkept) ?_⟩
        rintro ⟨q, hq, htook, hall⟩
        exact ⟨q, hq, by rw [htook, hkept], hfree hall⟩
      · exact .inr ⟨hx, hlive, hpages.trans hkept, hno, hfree hall⟩
    · obtain ⟨rest, -, hsettled, hlater, hkept⟩ :=
        loadFreelist_settled hs hlock hcurrent' hfrozen rfl hcpu hzero
      refine ⟨Books.loaded { b with locked := some page } page
        ((slabLock t page).pages page).freelist rest, ?_⟩
      rw [slabAllocSlow, hentry, loop_loadFreelist _ hcurrent' hzero]
      exact ⟨hsettled, (hquiet.trans (hsame ▸ hlater)).mono (fun _ hx => hx)
        (List.subset_append_left _ _), .inl ⟨hzero, rfl, .inl (hkept.trans hsame)⟩⟩

/-- An object from the list of the cpu. -/
theorem cpuFreelist_granted (hs : SinglePage s) (h : Settled s t b) (hne : t.cpuFreelist ≠ 0) :
    ∃ c, Granted s first second t b (t.cpuFreelist,
      { t with cpuFreelist := getFreepointer s.toKmemCache t.memory t.cpuFreelist }) c := by
  obtain ⟨rest, hcpu, hrest⟩ := h.cpuStack.pop hne
  have hmem : t.cpuFreelist ∈ b.cpu := hcpu ▸ List.mem_cons_self
  obtain ⟨page, hfrozen, hin, hon, hobject⟩ := h.toAccounts.cpu_object hmem
  have hpage := slabObjects_page hs hobject
  have hp := h.page page hin
  refine ⟨{ b with live := t.cpuFreelist :: b.live, cpu := rest }, ⟨?_, h.unlocked, h.current⟩,
    ⟨fun _ _ => rfl, fun _ _ => rfl⟩, .inl ⟨hne, rfl, .inl rfl⟩⟩
  refine adjust hs h.toAccounts hfrozen h.sound rfl rfl rfl rfl (fun _ _ => rfl)
    (fun _ _ _ _ _ _ _ _ => rfl) (fun q hq => ?_) (fun _ _ => rfl) (fun _ _ => Iff.rfl) ?_
    (fun y hy => ?_) hrest h.node
  · have hcons := liveOn_cons b t.cpuFreelist q
    rw [hpage, if_neg (Ne.symm hq)] at hcons
    exact List.Perm.of_eq hcons
  · have hlive : Books.liveOn { b with live := t.cpuFreelist :: b.live, cpu := rest } page =
        t.cpuFreelist :: b.liveOn page := by
      have hcons := liveOn_cons b t.cpuFreelist page
      rw [hpage, if_pos rfl] at hcons
      exact hcons
    refine ⟨hp.addressable, hp.slab, hp.objects, hp.inuse, hp.stack, ?_, hp.frozen, hp.locked,
      hp.pageSlab⟩
    have hsplit := hp.split
    rw [Books.cpuOn, if_pos hfrozen, hcpu] at hsplit
    refine List.Perm.trans ?_ hsplit
    rw [hlive, Books.cpuOn, if_pos hfrozen]
    rw [List.perm_iff_count]
    intro a
    simp only [List.count_append, List.count_cons]
    omega
  · rcases List.mem_cons.mp hy with heq | hy
    · rw [heq, hpage]
      exact hin
    · exact h.live y hy

/-- A change of the memory inside live objects is no matter of the books. -/
theorem write_settled (hs : SinglePage s) (h : Settled s t b) {m : Memory} (hx : x ∈ b.live)
    (hm : ∀ a, a < x ∨ x + slotSize s ≤ a → m a = t.memory a) :
    Settled s { t with memory := m } b := by
  have hsame : ∀ y, Apart (slotSize s) x y → Same t.memory m y (slotSize s) := by
    intro y hapart a hlow hhigh
    rw [Apart] at hapart
    exact hm a (by omega)
  have hobject := h.toAccounts.live_object hx
  refine ⟨?_, h.unlocked, h.current⟩
  exact
    { sound := h.sound
      nodup := h.nodup
      page := fun q hq => (h.page q hq).congr hs rfl
        (fun y hy => hsame y (slabObjects_apart hobject (h.toAccounts.free_object hq hy)
          (h.toAccounts.live_ne_free hs hx hq hy))) .rfl rfl rfl Iff.rfl Iff.rfl
      live := h.live
      cpuStack := h.cpuStack.same hs.pointer fun y hy => by
        obtain ⟨q, -, -, -, hother⟩ := h.toAccounts.cpu_object hy
        exact hsame y (slabObjects_apart hobject hother (h.toAccounts.live_ne_cpu hs hx hy))
      frozen := h.frozen
      idle := h.idle
      listed := h.listed
      mem_listed := h.mem_listed
      counted := h.counted
      node := h.node
      empties := h.empties }

/-- `slab_alloc`. -/
theorem slabAlloc_granted (hs : SinglePage s) (h : Settled s t b) (zero : Bool)
    (hfresh : ∀ q, (first <|> second) = some q → Fresh t q) :
    ∃ c, Granted s first second t b (slabAlloc s t zero first second) c := by
  obtain ⟨r, hr⟩ : ∃ r, r = if t.cpuFreelist = 0 then slabAllocSlow s t first second
      else (t.cpuFreelist,
        { t with cpuFreelist := getFreepointer s.toKmemCache t.memory t.cpuFreelist }) := ⟨_, rfl⟩
  obtain ⟨c, hgranted⟩ : ∃ c, Granted s first second t b r c := by
    rw [hr]
    by_cases hzero : t.cpuFreelist = 0
    · rw [if_pos hzero]
      exact slabAllocSlow_granted hs h (h.cpuStack.nil_iff.mpr hzero) hfresh
    · rw [if_neg hzero]
      exact cpuFreelist_granted hs h hzero
  rw [slabAlloc, ← hr]
  dsimp only
  by_cases hclear : zero = true ∧ r.1 ≠ 0
  · rw [if_pos hclear]
    have hsize := hs.objsize
    rcases hgranted.answer with hanswer | hanswer
    · have ⟨hne, hlive, htaken⟩ := hanswer
      have hx : r.1 ∈ c.live := hlive ▸ List.mem_cons_self
      have houtside : ∀ a, a < r.1 ∨ r.1 + slotSize s ≤ a →
          clear r.2.memory r.1 (toUnsigned 64 s.objsize) a = r.2.memory a := fun a ha => by
        rw [clear, if_neg (by omega)]
      have hobject := hgranted.settled.toAccounts.live_object hx
      have hin := hgranted.settled.live r.1 hx
      refine ⟨c, write_settled hs hgranted.settled hx houtside,
        hgranted.quiet.trans ⟨fun _ _ => rfl, fun a ha => houtside a ?_⟩, .inl hanswer⟩
      rcases ha with hout | ⟨y, hy, hlow, hhigh⟩
      · by_contra hnot
        have hinside := slabObjects_inside hobject
        have hquot : a / pageSize = r.1 / pageSize := by
          refine Nat.div_eq_of_lt_le (by omega) ?_
          rw [Nat.succ_mul]
          omega
        refine hout ?_
        rw [hquot]
        rcases htaken with hall | ⟨page, hpage, hall, -⟩
        · rw [hall] at hin
          exact List.mem_append_left _ hin
        · rw [hall] at hin
          rw [hpage, Option.toList_some, List.mem_append, List.mem_singleton]
          exact (List.mem_cons.mp hin).symm
      · have hlive' : y ∈ c.live := hlive ▸ List.mem_cons_of_mem _ hy
        have hnodup := hgranted.settled.toAccounts.live_nodup hs
        rw [hlive] at hnodup
        have hapart := slabObjects_apart hobject (hgranted.settled.toAccounts.live_object hlive')
          fun heq => (List.nodup_cons.mp hnodup).1 (heq ▸ hy)
        rw [Apart] at hapart
        omega
    · exact absurd hanswer.1 hclear.2
  · rw [if_neg hclear]
    exact ⟨c, hgranted⟩

end BiscuitOS.SlubCacheAlloc
