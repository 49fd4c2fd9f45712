import BiscuitOS.SlubCacheAlloc

/-!
# Taking an object back

An object goes back to the list of the cpu when it is from the slab of the
cpu, and otherwise to the list of its page. A slab whose last object comes
back is given back to the page allocator.
-/

namespace BiscuitOS.SlubCacheFree

open MachineWord ByteMemory LinkedCells SlubLayout SlubCacheModel SlubCacheBooks SlubCacheSteps

variable {s : CacheDesc} {t u : SlubState} {b c : Books} {page x : ℕ}

/-- Other live objects are apart from one that is taken back. -/
theorem erase_apart (hs : SinglePage s) (h : Accounts s t b) (hx : x ∈ b.live) :
    ∀ y ∈ b.live.erase x, Apart (slotSize s) x y := fun y hy => by
  obtain ⟨hne, hlive⟩ := (h.live_nodup hs).mem_erase_iff.mp hy
  exact slabObjects_apart (h.live_object hx) (h.live_object hlive) (Ne.symm hne)

/-- The objects of other pages stay live. -/
theorem liveOn_erase_other (hx : x ∈ b.live) (hpage : x / pageSize = page) {q : ℕ} (hq : q ≠ page) :
    (Books.liveOn { b with live := b.live.erase x } q).Perm (b.liveOn q) := by
  have herase := liveOn_erase hx q
  rwa [hpage, if_neg (Ne.symm hq)] at herase

/-- A live object overlaps no free object. -/
theorem apart_free (hs : SinglePage s) (h : Accounts s t b) (hx : x ∈ b.live) {q : ℕ}
    (hq : q ∈ t.taken) : ∀ y ∈ b.free q, Apart (slotSize s) x y := fun _ hy =>
  slabObjects_apart (h.live_object hx) (h.free_object hq hy) (h.live_ne_free hs hx hq hy)

/-- A live object overlaps no object of the cpu. -/
theorem apart_cpu (hs : SinglePage s) (h : Accounts s t b) (hx : x ∈ b.live) :
    ∀ y ∈ b.cpu, Apart (slotSize s) x y := by
  intro y hy
  obtain ⟨q, -, -, -, hother⟩ := h.cpu_object hy
  exact slabObjects_apart (h.live_object hx) hother (h.live_ne_cpu hs hx hy)

/-- The list of the cpu keeps its links when a live object gets one. -/
theorem cpuStack_setFreepointer (hs : SinglePage s) (h : Accounts s t b) (hx : x ∈ b.live)
    (value : ℕ) : Linked (setFreepointer s.toKmemCache t.memory x value) (slotOffset s)
      t.cpuFreelist b.cpu :=
  h.cpuStack.same hs.pointer fun y hy => same_setFreepointer hs _ _ (apart_cpu hs h hx y hy)

/-- `slab_free` of an object of the slab of the cpu. -/
theorem slabFree_fast (hs : SinglePage s) (h : Settled s t b) (hx : x ∈ b.live)
    (hcurrent : t.cpuPage = some (x / pageSize)) :
    Settled s { t with
        memory := setFreepointer s.toKmemCache t.memory x t.cpuFreelist
        cpuFreelist := x } { b with live := b.live.erase x, cpu := x :: b.cpu } ∧
      Quiet s (b.live.erase x) t.taken t { t with
        memory := setFreepointer s.toKmemCache t.memory x t.cpuFreelist
        cpuFreelist := x } := by
  have hin := h.live x hx
  have hp := h.page _ hin
  have hobject := h.toAccounts.live_object hx
  have hfrozen : b.frozen = some (x / pageSize) := by rw [← h.current, hcurrent]
  obtain ⟨hne, hlt⟩ := hp.addressable.object hobject
  refine ⟨⟨?_, h.unlocked, h.current⟩, quiet_setFreepointer hs t.cpuFreelist (fun _ _ => rfl) rfl
    hobject hin (erase_apart hs h.toAccounts hx)⟩
  have hfreeSame : ∀ q ∈ t.taken, ∀ y ∈ b.free q, Same t.memory
      (setFreepointer s.toKmemCache t.memory x t.cpuFreelist) y (slotSize s) := fun q hq y hy =>
    same_setFreepointer hs _ _ (apart_free hs h.toAccounts hx hq y hy)
  refine adjust hs h.toAccounts hfrozen h.sound rfl rfl rfl rfl (fun _ _ => rfl)
    (fun q hq _ y hy => hfreeSame q hq y hy) (fun q hq => ?_) (fun _ _ => rfl)
    (fun _ _ => Iff.rfl) ?_ (fun y hy => h.live y (List.mem_of_mem_erase hy)) ?_ h.node
  · exact liveOn_erase_other hx rfl hq
  · refine ⟨hp.addressable, hp.slab, hp.objects, hp.inuse, ?_, ?_, hp.frozen, hp.locked, hp.pageSlab⟩
    · exact hp.stack.same hs.pointer (hfreeSame _ hin)
    · have herase := liveOn_erase hx (x / pageSize)
      rw [if_pos rfl] at herase
      have hcount := List.perm_iff_count.mp herase
      refine List.Perm.trans ?_ hp.split
      rw [Books.cpuOn, Books.cpuOn, if_pos hfrozen, if_pos hfrozen, List.perm_iff_count]
      intro a
      have hhere := hcount a
      simp only [List.count_append, List.count_cons, Books.liveOn] at hhere ⊢
      omega
  · exact h.cpuStack.push hs.pointer hne hlt (apart_cpu hs h.toAccounts hx)

/-- The books when an object is back on the list of its page. -/
def Books.putBack (b : Books) (page x : ℕ) : Books :=
  { b with
    live := b.live.erase x
    free := Function.update b.free page (x :: b.free page) }

/-- The page to whose list an object went back. -/
theorem putBack_page (hs : SinglePage s) (h : Settled s t b) (hx : x ∈ b.live)
    (hpage : x / pageSize = page) (hcurrent : t.cpuPage ≠ some page)
    (hmemory : u.memory = setFreepointer s.toKmemCache t.memory x (t.pages page).freelist)
    (hself : u.pages page =
      { t.pages page with freelist := x, inuse := (t.pages page).inuse - 1 }) :
    PageAccounts s u (Books.putBack b page x) page := by
  have hin : page ∈ t.taken := hpage ▸ h.live x hx
  have hp := h.page page hin
  have hobject : x ∈ slabObjects s page := hpage ▸ h.toAccounts.live_object hx
  obtain ⟨hne, hlt⟩ := hp.addressable.object hobject
  have hthawed : b.frozen ≠ some page := fun heq => hcurrent (h.current.trans heq)
  have herase := liveOn_erase hx page
  rw [if_pos hpage] at herase
  have hused := used_eq hp
  have hlen := herase.length_eq
  have hinuse := hp.inuse
  rw [List.length_cons] at hlen
  rw [Books.cpuOn, if_neg hthawed, List.length_nil, Nat.add_zero] at hused
  have hfree : (Books.putBack b page x).free page = x :: b.free page := Function.update_self ..
  refine ⟨hp.addressable, ?_, ?_, ?_, ?_, ?_, ?_, ?_, ?_⟩
  · rw [hself, hp.slab]
  · rw [hself, hp.objects]
  · rw [hself, hfree, List.length_cons]
    dsimp only
    omega
  · rw [hself, hmemory, hfree]
    exact hp.stack.push hs.pointer hne hlt (apart_free hs h.toAccounts hx hin)
  · have hcount := List.perm_iff_count.mp herase
    refine List.Perm.trans ?_ hp.split
    have hidle : (Books.putBack b page x).cpuOn page = [] := if_neg hthawed
    rw [hidle, hfree, Books.cpuOn, if_neg hthawed, List.perm_iff_count]
    intro a
    have hhere := hcount a
    simp only [List.count_append, List.count_cons, Books.liveOn, Books.putBack] at hhere ⊢
    omega
  · rw [hself, hp.frozen]
    rfl
  · rw [hself, hp.locked]
    rfl
  · rw [hself, hp.pageSlab]

/-- A slab that keeps objects in use is not one of the empty slabs of the list. -/
theorem putBack_empties {P : Prop} [Decidable P]
    (hlist : u.partialList.Perm (if P then page :: t.partialList else t.partialList))
    (hkept : ∀ q, q ≠ page → u.pages q = t.pages q) (hsome : (u.pages page).inuse ≠ 0) :
    (emptySlabs u).length ≤ (emptySlabs t).length := by
  have hlen := (hlist.filter fun q => decide ((u.pages q).inuse = 0)).length_eq
  have hold : (t.partialList.filter fun q => decide ((u.pages q).inuse = 0)).length ≤
      (emptySlabs t).length := by
    rw [emptySlabs, ← List.countP_eq_length_filter, ← List.countP_eq_length_filter]
    refine List.countP_mono_left fun q _ hzero => ?_
    have hempty := of_decide_eq_true hzero
    have hq : q ≠ page := fun heq => hsome (heq ▸ hempty)
    exact decide_eq_true (by rw [← hkept q hq, hempty])
  rw [emptySlabs, hlen]
  split
  · rw [List.filter_cons, if_neg fun hzero => hsome (of_decide_eq_true hzero)]
    exact hold
  · exact hold

/-- An object goes back to the list of its page, which keeps other objects in use. -/
theorem putBack (hs : SinglePage s) (h : Settled s t b) (hx : x ∈ b.live)
    (hpage : x / pageSize = page) (hcurrent : t.cpuPage ≠ some page) (hbroken : u.broken = false)
    (htaken : u.taken = t.taken)
    (hmemory : u.memory = setFreepointer s.toKmemCache t.memory x (t.pages page).freelist)
    (hfreelist : u.cpuFreelist = t.cpuFreelist) (hnode : u.cpuNode = t.cpuNode)
    (hcpuPage : u.cpuPage = t.cpuPage)
    (hpages : u.pages = Function.update t.pages page
      { t.pages page with freelist := x, inuse := (t.pages page).inuse - 1 })
    (hmore : (t.pages page).inuse ≠ 1) (hsome : (t.pages page).inuse ≠ 0)
    (hlist : u.partialList.Perm
      (if b.free page = [] then page :: t.partialList else t.partialList))
    (hcounted : u.nrPartial = u.partialList.length) :
    Settled s u (Books.putBack b page x) ∧ Quiet s (b.live.erase x) t.taken t u := by
  have hin : page ∈ t.taken := hpage ▸ h.live x hx
  have hobject : x ∈ slabObjects s page := hpage ▸ h.toAccounts.live_object hx
  have hthawed : b.frozen ≠ some page := fun heq => hcurrent (h.current.trans heq)
  have hself : u.pages page =
      { t.pages page with freelist := x, inuse := (t.pages page).inuse - 1 } := by
    rw [hpages, Function.update_self]
  have hkept : ∀ q, q ≠ page → u.pages q = t.pages q :=
    fun q hq => by rw [hpages, Function.update_of_ne hq]
  have hothers := others (u := u) (c := Books.putBack b page x) hs h.toAccounts hkept
    (fun q hq _ y hy => by
      rw [hmemory]
      exact same_setFreepointer hs _ _ (apart_free hs h.toAccounts hx hq y hy))
    (fun q hq => liveOn_erase_other hx hpage hq) (fun _ _ => rfl)
    (fun q hq => Function.update_of_ne hq _ _) (fun _ _ => Iff.rfl) (fun _ _ => Iff.rfl)
  have hnot : b.free page = [] → page ∉ t.partialList := fun hnil hmem =>
    ((h.mem_listed page).mp hmem).2.2 hnil
  refine ⟨⟨?_, h.unlocked, hcpuPage.trans h.current⟩, quiet_setFreepointer hs _
    (fun q hq => hkept q fun heq => hq (heq ▸ hin)) hmemory hobject hin
    (erase_apart hs h.toAccounts hx)⟩
  refine
    { sound := hbroken
      nodup := htaken ▸ h.nodup
      page := fun q hq => ?_
      live := fun y hy => htaken ▸ h.live y (List.mem_of_mem_erase hy)
      cpuStack := ?_
      frozen := fun q hq => htaken ▸ h.frozen q hq
      idle := h.idle
      listed := ?_
      mem_listed := fun q => ?_
      counted := hcounted
      node := hnode ▸ h.node
      empties := ?_ }
  · by_cases hq' : q = page
    · rw [hq']
      exact putBack_page hs h hx hpage hcurrent hmemory hself
    · exact hothers q (htaken ▸ hq) hq'
  · rw [hfreelist, hmemory]
    exact cpuStack_setFreepointer hs h.toAccounts hx _
  · rw [hlist.nodup_iff]
    split
    case isTrue hnil => exact List.nodup_cons.mpr ⟨hnot hnil, h.listed⟩
    case isFalse => exact h.listed
  · rw [hlist.mem_iff, htaken, Books.putBack]
    by_cases hq : q = page
    · subst hq
      simp only [Function.update_self]
      refine iff_of_true ?_ ⟨hin, hthawed, List.cons_ne_nil _ _⟩
      split
      case isTrue => exact List.mem_cons_self
      case isFalse hlisted => exact (h.mem_listed q).mpr ⟨hin, hthawed, hlisted⟩
    · have hmem : q ∈ (if b.free page = [] then page :: t.partialList else t.partialList) ↔
          q ∈ t.partialList := by
        split
        · rw [List.mem_cons, or_iff_right hq]
        · exact Iff.rfl
      simp only [Function.update_of_ne hq]
      rw [hmem, h.mem_listed q]
  · refine (putBack_empties hlist hkept ?_).trans h.empties
    rw [hself]
    dsimp only
    omega

/-- The state that `__slab_free` has after the object was put on the list of its page. -/
theorem slabFreeSlow_eq (hs : SinglePage s) (h : Settled s t b) (hin : page ∈ t.taken)
    (hcurrent : t.cpuPage ≠ some page) (hsome : (t.pages page).inuse ≠ 0) :
    ∃ v, v = { t.setDesc page { t.pages page with
          freelist := x
          inuse := (t.pages page).inuse - 1
          locked := true } with
        memory := setFreepointer s.toKmemCache t.memory x (t.pages page).freelist } ∧
      slabFreeSlow s t page x = if (t.pages page).inuse = 1 then
        discardSlab s (slabUnlock (if (t.pages page).freelist ≠ 0 then removePartial v page else v)
          page) page
      else slabUnlock (if (t.pages page).freelist = 0 then addPartial v page true else v) page := by
  have hp := h.page page hin
  have hfew := hs.few
  have hinuse := hp.inuse
  have hless : wrapSub 16 (t.pages page).inuse 1 = (t.pages page).inuse - 1 :=
    wrapSub_of_le (by omega) (by omega)
  have hthawed : (t.pages page).frozen = false := by
    rw [hp.frozen]
    exact decide_eq_false fun heq => hcurrent (h.current.trans heq)
  obtain ⟨hlock, -⟩ := slabLock_accounts hs h.toAccounts hin h.unlocked
  refine ⟨_, rfl, ?_⟩
  have hone : ((t.pages page).inuse - 1 = 0) = ((t.pages page).inuse = 1) :=
    propext (by omega)
  rw [slabFreeSlow, hlock]
  simp only [SlubState.setDesc, Function.update_self, Function.update_idem, hthawed, hless, hone,
    Bool.false_eq_true, if_false]

/-- The list of slabs without the slab of an object that was its last. -/
theorem removePartial_eq (h : Settled s t b) (hin : page ∈ t.taken)
    (hcurrent : t.cpuPage ≠ some page) (hlist : u.partialList = t.partialList)
    (hnr : u.nrPartial = t.nrPartial) :
    (if (t.pages page).freelist ≠ 0 then removePartial u page else u) = { u with
      partialList := t.partialList.erase page
      nrPartial := (t.partialList.erase page).length } := by
  have hnil := (h.page page hin).stack.nil_iff
  have hthawed : b.frozen ≠ some page := fun heq => hcurrent (h.current.trans heq)
  by_cases hsome : (t.pages page).freelist ≠ 0
  · have hmem : page ∈ t.partialList :=
      (h.mem_listed page).mpr ⟨hin, hthawed, fun hnone => hsome (hnil.mp hnone)⟩
    have hpos := List.length_pos_of_mem hmem
    have hlen := listed_length h.toAccounts
    have hless : wrapSub 64 t.nrPartial 1 = t.partialList.length - 1 := by
      rw [h.counted]
      exact wrapSub_of_le (by omega) hpos
    rw [if_pos hsome, removePartial, hlist, if_pos hmem, hnr, hless,
      List.length_erase_of_mem hmem]
  · have hnot : page ∉ t.partialList := fun hmem =>
      ((h.mem_listed page).mp hmem).2.2 (hnil.mpr (not_not.mp hsome))
    rw [if_neg hsome, List.erase_of_not_mem hnot, ← h.counted, ← hlist, ← hnr]

/-- The last object of a slab goes back and the slab leaves the cache. -/
theorem takeBack (hs : SinglePage s) (h : Settled s t b) (hx : x ∈ b.live)
    (hpage : x / pageSize = page) (hcurrent : t.cpuPage ≠ some page)
    (hlast : (t.pages page).inuse = 1) (hbroken : u.broken = false)
    (htaken : u.taken = t.taken.erase page)
    (hmemory : u.memory = setFreepointer s.toKmemCache t.memory x (t.pages page).freelist)
    (hfreelist : u.cpuFreelist = t.cpuFreelist) (hnode : u.cpuNode = t.cpuNode)
    (hcpuPage : u.cpuPage = t.cpuPage) (hkept : ∀ q, q ≠ page → u.pages q = t.pages q)
    (hlist : u.partialList = t.partialList.erase page)
    (hcounted : u.nrPartial = u.partialList.length) :
    Settled s u { b with live := b.live.erase x } ∧ Quiet s (b.live.erase x) t.taken t u := by
  have hin : page ∈ t.taken := hpage ▸ h.live x hx
  have hobject : x ∈ slabObjects s page := hpage ▸ h.toAccounts.live_object hx
  have hthawed : b.frozen ≠ some page := fun heq => hcurrent (h.current.trans heq)
  have hothers : ∀ y ∈ b.live.erase x, y / pageSize ≠ page := by
    intro y hy hon
    have herase := liveOn_erase hx page
    rw [if_pos hpage] at herase
    have hlen := herase.length_eq
    have hused := used_eq (h.page page hin)
    rw [List.length_cons] at hlen
    rw [Books.cpuOn, if_neg hthawed, List.length_nil, Nat.add_zero] at hused
    have hempty : Books.liveOn { b with live := b.live.erase x } page = [] :=
      List.eq_nil_of_length_eq_zero (by omega)
    have hmem : y ∈ Books.liveOn { b with live := b.live.erase x } page := mem_liveOn.mpr ⟨hy, hon⟩
    rw [hempty] at hmem
    cases hmem
  refine ⟨⟨?_, h.unlocked, hcpuPage.trans h.current⟩, quiet_setFreepointer hs _
    (fun q hq => hkept q fun heq => hq (heq ▸ hin)) hmemory hobject hin
    (erase_apart hs h.toAccounts hx)⟩
  refine @retire s t u b _ page hs h.toAccounts hbroken htaken hkept (fun q hq _ y hy => ?_)
    (fun q hq => liveOn_erase_other hx hpage hq)
    (fun y hy => ⟨h.live y (List.mem_of_mem_erase hy), hothers y hy⟩) (fun _ _ => rfl)
    (fun _ _ => rfl) (fun _ _ => Iff.rfl) hthawed (fun _ _ => Iff.rfl) ?_ h.idle
    (hnode.trans h.node) hlist hcounted
  · rw [hmemory]
    exact same_setFreepointer hs _ _ (apart_free hs h.toAccounts hx hq y hy)
  · rw [hfreelist, hmemory]
    exact cpuStack_setFreepointer hs h.toAccounts hx _

/-- `__slab_free` of the last object of a slab. -/
theorem slabFreeSlow_last (hs : SinglePage s) (h : Settled s t b) (hx : x ∈ b.live)
    (hpage : x / pageSize = page) (hcurrent : t.cpuPage ≠ some page)
    (hlast : (t.pages page).inuse = 1) :
    Settled s (slabFreeSlow s t page x) { b with live := b.live.erase x } ∧
      Quiet s (b.live.erase x) t.taken t (slabFreeSlow s t page x) ∧
      (slabFreeSlow s t page x).taken ⊆ t.taken := by
  have hin : page ∈ t.taken := hpage ▸ h.live x hx
  obtain ⟨v, hv, heq⟩ := slabFreeSlow_eq (x := x) hs h hin hcurrent (by omega)
  rw [heq, if_pos hlast, removePartial_eq h hin hcurrent (by rw [hv]; rfl) (by rw [hv]; rfl)]
  obtain ⟨w, hw⟩ : ∃ w, w = { v with
      partialList := t.partialList.erase page
      nrPartial := (t.partialList.erase page).length } := ⟨_, rfl⟩
  have htaken : (slabUnlock w page).taken = t.taken := by rw [hw, hv]; rfl
  rw [← hw, discardSlab_eq hs (by rw [htaken]; exact hin), htaken]
  obtain ⟨hsettled, hquiet⟩ := takeBack (u := { (slabUnlock w page).setDesc page
      { (slabUnlock w page).pages page with pageSlab := false } with taken := t.taken.erase page })
    hs h hx hpage hcurrent hlast (by rw [hw, hv]; exact h.sound) rfl (by rw [hw, hv]; rfl)
    (by rw [hw, hv]; rfl) (by rw [hw, hv]; rfl) (by rw [hw, hv]; rfl)
    (fun q hq => by
      simp only [slabUnlock, setDesc_pages, Function.update_of_ne hq]
      rw [hw, hv]
      exact Function.update_of_ne hq _ _)
    (by rw [hw]; rfl) (by rw [hw]; rfl)
  exact ⟨hsettled, hquiet, List.erase_subset⟩

/-- `__slab_free` of an object of a slab that keeps others in use. -/
theorem slabFreeSlow_more (hs : SinglePage s) (h : Settled s t b) (hx : x ∈ b.live)
    (hpage : x / pageSize = page) (hcurrent : t.cpuPage ≠ some page)
    (hmore : (t.pages page).inuse ≠ 1) (hsome : (t.pages page).inuse ≠ 0) :
    Settled s (slabFreeSlow s t page x) (Books.putBack b page x) ∧
      Quiet s (b.live.erase x) t.taken t (slabFreeSlow s t page x) ∧
      (slabFreeSlow s t page x).taken ⊆ t.taken := by
  have hin : page ∈ t.taken := hpage ▸ h.live x hx
  have hp := h.page page hin
  have hnil := hp.stack.nil_iff
  have hfree := hp.locked
  rw [h.unlocked] at hfree
  obtain ⟨v, hv, heq⟩ := slabFreeSlow_eq (x := x) hs h hin hcurrent hsome
  have hlist : v.partialList = t.partialList := by rw [hv]; rfl
  have hnr : v.nrPartial = t.nrPartial := by rw [hv]; rfl
  rw [heq, if_neg hmore]
  obtain ⟨w, hw, hrest, hperm, hcounted⟩ : ∃ w,
      w = (if (t.pages page).freelist = 0 then addPartial v page true else v) ∧
      w = { v with partialList := w.partialList, nrPartial := w.nrPartial } ∧
      w.partialList.Perm (if b.free page = [] then page :: t.partialList else t.partialList) ∧
      w.nrPartial = w.partialList.length := by
    refine ⟨_, rfl, ?_⟩
    by_cases hnone : (t.pages page).freelist = 0
    · have hlen := listed_length h.toAccounts
      rw [if_pos hnone, if_pos (hnil.mpr hnone), ← hlist]
      refine ⟨rfl, addPartial_perm v page true, ?_⟩
      rw [(addPartial_perm v page true).length_eq, List.length_cons, addPartial, hnr, hlist,
        h.counted]
      exact wrap_of_lt (by omega)
    · rw [if_neg hnone, if_neg fun hempty => hnone (hnil.mp hempty)]
      refine ⟨rfl, ?_, ?_⟩
      · rw [hlist]
      · rw [hnr, hlist, h.counted]
  have hpages : (slabUnlock w page).pages = Function.update t.pages page
      { t.pages page with freelist := x, inuse := (t.pages page).inuse - 1 } := by
    rw [slabUnlock, setDesc_pages, hrest, hv]
    simp only [SlubState.setDesc, Function.update_self, Function.update_idem]
    rw [hfree]
    rfl
  have htaken : (slabUnlock w page).taken = t.taken := by rw [hrest, hv]; rfl
  rw [← hw]
  obtain ⟨hsettled, hquiet⟩ := putBack (u := slabUnlock w page) hs h hx hpage hcurrent
    (by rw [hrest, hv]; exact h.sound) htaken (by rw [hrest, hv]; rfl) (by rw [hrest, hv]; rfl)
    (by rw [hrest, hv]; rfl) (by rw [hrest, hv]; rfl) hpages hmore hsome hperm hcounted
  exact ⟨hsettled, hquiet, fun q hq => htaken ▸ hq⟩

/-- `__slab_free` of a live object. -/
theorem slabFreeSlow_settled (hs : SinglePage s) (h : Settled s t b) (hx : x ∈ b.live)
    (hpage : x / pageSize = page) (hcurrent : t.cpuPage ≠ some page) :
    ∃ c, Settled s (slabFreeSlow s t page x) c ∧ c.live = b.live.erase x ∧ c.frozen = b.frozen ∧
      Quiet s (b.live.erase x) t.taken t (slabFreeSlow s t page x) ∧
      (slabFreeSlow s t page x).taken ⊆ t.taken := by
  have hin : page ∈ t.taken := hpage ▸ h.live x hx
  have herase := liveOn_erase hx page
  rw [if_pos hpage] at herase
  have hlen := herase.length_eq
  have hused := used_eq (h.page page hin)
  rw [List.length_cons] at hlen
  by_cases hlast : (t.pages page).inuse = 1
  · obtain ⟨hsettled, hquiet, htaken⟩ := slabFreeSlow_last hs h hx hpage hcurrent hlast
    exact ⟨_, hsettled, rfl, rfl, hquiet, htaken⟩
  · obtain ⟨hsettled, hquiet, htaken⟩ :=
      slabFreeSlow_more hs h hx hpage hcurrent hlast (by omega)
    exact ⟨_, hsettled, rfl, rfl, hquiet, htaken⟩

/-- `kmem_cache_free` of a live object. -/
theorem kmemCacheFree_settled (hs : SinglePage s) (h : Settled s t b) (hx : x ∈ b.live) :
    ∃ c, Settled s (kmemCacheFree s t x) c ∧ c.live = b.live.erase x ∧
      Quiet s (b.live.erase x) t.taken t (kmemCacheFree s t x) ∧
      (kmemCacheFree s t x).taken ⊆ t.taken := by
  rw [kmemCacheFree, slabFree]
  by_cases hcurrent : t.cpuPage = some (x / pageSize)
  · obtain ⟨hsettled, hquiet⟩ := slabFree_fast hs h hx hcurrent
    rw [if_pos ⟨hcurrent, by rw [h.node]; decide⟩]
    exact ⟨_, hsettled, rfl, hquiet, fun _ hq => hq⟩
  · obtain ⟨c, hsettled, hlive, -, hquiet, htaken⟩ := slabFreeSlow_settled hs h hx rfl hcurrent
    rw [if_neg fun hboth => hcurrent hboth.1]
    exact ⟨c, hsettled, hlive, hquiet, htaken⟩

end BiscuitOS.SlubCacheFree
