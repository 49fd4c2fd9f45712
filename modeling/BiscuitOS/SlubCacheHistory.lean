import BiscuitOS.SlubCacheShrink
import BiscuitOS.TransitionRun

/-!
# Histories of a cache

A cache that was just opened is used in any order: objects are handed out,
written to and taken back, the slab of the cpu is flushed and the cache is
shrunk, while the page allocator may refuse at any time. The books are kept in
every state, nothing that must not happen does, and what was written into a
live object stays there.
-/

namespace BiscuitOS.SlubCacheHistory

open ByteMemory LinkedCells MachineWord TransitionRun SlubLayout SlubSizes SlubFreelist SlubCacheModel
  SlubCacheBooks SlubCacheSteps SlubCacheAlloc SlubCacheFree SlubCacheShrink

/-- A cache after `kmem_cache_open`: nothing is on its node, and its cpu slab is zero. -/
def openState (memory : Memory) (pages : ℕ → SlabDesc) : SlubState where
  memory := memory
  pages := pages
  taken := []
  cpuFreelist := 0
  cpuPage := none
  cpuNode := 0
  nrPartial := 0
  partialList := []
  broken := false

/-- A cache, its live objects and what their users wrote. -/
structure CacheWorld where
  /-- The cache. -/
  state : SlubState
  /-- The objects that were handed out and not taken back. -/
  live : List ℕ
  /-- What the bytes of live objects should be. -/
  wrote : Memory

/-- What a cache is asked to do, and what its users do. -/
inductive CacheOp
  /-- `kmem_cache_alloc`, with the answers that the page allocator would give. -/
  | alloc (zero : Bool) (first second : Option ℕ)
  /-- `kmem_cache_free`. -/
  | free (x : ℕ)
  /-- A user writes a byte of an object. -/
  | write (x i v : ℕ)
  /-- `flush_all`. -/
  | flush
  /-- `kmem_cache_shrink`, whose array is of another cache. -/
  | shrink (granted : Bool)

/-- Perform an operation. -/
def advance (s : CacheDesc) (w : CacheWorld) : CacheOp → CacheWorld
  | .alloc zero first second =>
    let r := slabAlloc s w.state zero first second
    if r.1 = 0 then { w with state := r.2 }
    else
      { state := r.2
        live := r.1 :: w.live
        wrote := fun a => if r.1 ≤ a ∧ a < r.1 + toUnsigned 64 s.objsize then
          (if zero then 0 else r.2.memory a) else w.wrote a }
  | .free x => { w with state := kmemCacheFree s w.state x, live := w.live.erase x }
  | .write x i v =>
    { w with
      state := { w.state with memory := Function.update w.state.memory (x + i) v }
      wrote := Function.update w.wrote (x + i) v }
  | .flush => { w with state := flushAll s w.state }
  | .shrink granted => { w with state := (kmemCacheShrink s w.state granted).2 }

/-- Perform an operation, unless something happens that must not. -/
def perform (s : CacheDesc) (w : CacheWorld) (op : CacheOp) : Option CacheWorld :=
  if (advance s w op).state.broken then none else some (advance s w op)

/-- What the page allocator and the users promise: a page that is granted is not in use, and
objects are freed and written to while they are live. -/
def Legal (s : CacheDesc) (w : CacheWorld) : CacheOp → Prop
  | .alloc _ first second => ∀ page ∈ first <|> second, Fresh w.state page
  | .free x => x ∈ w.live
  | .write x i _ => x ∈ w.live ∧ i < toUnsigned 64 s.objsize
  | .flush => True
  | .shrink _ => True

/-- The books are kept, and the bytes of live objects are what their users wrote. -/
structure Kept (s : CacheDesc) (w : CacheWorld) (b : Books) : Prop where
  /-- The books. -/
  settled : Settled s w.state b
  /-- The live objects. -/
  live : b.live = w.live
  /-- Their contents. -/
  contents : ∀ x ∈ w.live, ∀ a, x ≤ a → a < x + toUnsigned 64 s.objsize →
    w.state.memory a = w.wrote a

variable {s : CacheDesc} {w : CacheWorld} {b c : Books} {u : SlubState} {x : ℕ}

/-- A cache that was just opened has nothing to account for. -/
theorem openState_kept (s : CacheDesc) (memory : Memory) (pages : ℕ → SlabDesc) :
    Kept s ⟨openState memory pages, [], memory⟩ ⟨[], [], fun _ => [], none, none⟩ where
  settled :=
    { sound := rfl
      nodup := List.nodup_nil
      page := fun q hq => (by cases hq)
      live := fun q hq => (by cases hq)
      cpuStack := linked_nil.mpr rfl
      frozen := fun q hq => (by cases hq)
      idle := fun _ => rfl
      listed := List.nodup_nil
      mem_listed := fun q => ⟨fun hq => (by cases hq), fun hq => (by cases hq.1)⟩
      counted := rfl
      node := rfl
      empties := Nat.zero_le _
      unlocked := rfl
      current := rfl }
  live := rfl
  contents := fun x hx => (by cases hx)

/-- A byte of a live object is in its slot. -/
theorem byte_inside (hs : SinglePage s) {a : ℕ} (h : a < x + toUnsigned 64 s.objsize) :
    a < x + slotSize s := by
  have := hs.objsize
  omega

/-- The contents of objects that stay live survive a quiet step. -/
theorem Kept.quiet (hs : SinglePage s) (h : Kept s w b) {live mine : List ℕ}
    (hquiet : Quiet s live mine w.state u) (hlive : live ⊆ w.live) :
    ∀ x ∈ live, ∀ a, x ≤ a → a < x + toUnsigned 64 s.objsize → u.memory a = w.wrote a :=
  fun x hx a hlow hhigh => (hquiet.memory a (.inr ⟨x, hx, hlow, byte_inside hs hhigh⟩)).trans
    (h.contents x (hlive hx) a hlow hhigh)

/-- An object of its own is apart from the live ones. -/
theorem cons_apart (hs : SinglePage s) (h : Settled s u c) {live : List ℕ} (hlive : c.live = x :: live) :
    ∀ y ∈ live, Apart (slotSize s) x y := by
  intro y hy
  have hnodup := h.toAccounts.live_nodup hs
  rw [hlive] at hnodup
  have hx : x ∈ c.live := hlive ▸ List.mem_cons_self
  have hy' : y ∈ c.live := hlive ▸ List.mem_cons_of_mem _ hy
  exact slabObjects_apart (h.toAccounts.live_object hx) (h.toAccounts.live_object hy')
    fun heq => (List.nodup_cons.mp hnodup).1 (heq ▸ hy)

/-- An object that was asked for cleared is zero. -/
theorem slabAlloc_zero {t : SlubState} {first second : Option ℕ} {a : ℕ}
    (hne : (slabAlloc s t true first second).1 ≠ 0) (hlow : (slabAlloc s t true first second).1 ≤ a)
    (hhigh : a < (slabAlloc s t true first second).1 + toUnsigned 64 s.objsize) :
    (slabAlloc s t true first second).2.memory a = 0 := by
  obtain ⟨r, hr⟩ : ∃ r, slabAlloc s t true first second = if true ∧ r.1 ≠ 0 then
      (r.1, { r.2 with memory := clear r.2.memory r.1 (toUnsigned 64 s.objsize) }) else r :=
    ⟨_, rfl⟩
  rw [hr] at hne hlow hhigh ⊢
  by_cases hsome : r.1 ≠ 0
  · rw [if_pos ⟨rfl, hsome⟩] at hlow hhigh ⊢
    exact if_pos ⟨hlow, hhigh⟩
  · rw [if_neg fun hboth => hsome hboth.2] at hne
    exact absurd hne hsome

/-- Each operation keeps the books and the contents. -/
theorem advance_kept (hs : SinglePage s) (h : Kept s w b) (op : CacheOp) (hlegal : Legal s w op) :
    ∃ c, Kept s (advance s w op) c := by
  have hbooks : b.live ⊆ w.live := fun y hy => h.live ▸ hy
  cases op with
  | alloc zero first second =>
    obtain ⟨c, hgranted⟩ := slabAlloc_granted hs h.settled zero hlegal
    have hkept := h.quiet hs hgranted.quiet hbooks
    rw [advance]
    rcases hgranted.answer with ⟨hne, hlive, -⟩ | ⟨hzero, hlive, -⟩
    · rw [if_neg hne]
      refine ⟨c, hgranted.settled, by rw [hlive, h.live], fun y hy a hlow hhigh => ?_⟩
      dsimp only at hy ⊢
      rcases List.mem_cons.mp hy with heq | hy
      · rw [heq] at hlow hhigh
        rw [if_pos ⟨hlow, hhigh⟩]
        cases zero with
        | true => exact slabAlloc_zero hne hlow hhigh
        | false => rfl
      · have hapart := cons_apart hs hgranted.settled hlive y (h.live ▸ hy)
        have hin := byte_inside hs hhigh
        have hsize := hs.objsize
        rw [Apart] at hapart
        rw [if_neg (by omega)]
        exact hkept y (h.live ▸ hy) a hlow hhigh
    · rw [if_pos hzero]
      exact ⟨c, hgranted.settled, by rw [hlive, h.live], fun y hy => hkept y (h.live ▸ hy)⟩
  | free x =>
    have hx : x ∈ b.live := by
      rw [h.live]
      exact hlegal
    obtain ⟨c, hsettled, hlive, hquiet, -⟩ := kmemCacheFree_settled hs h.settled hx
    have hkept := h.quiet hs hquiet (List.Subset.trans List.erase_subset hbooks)
    rw [h.live] at hlive hkept
    exact ⟨c, hsettled, hlive, hkept⟩
  | write x i v =>
    obtain ⟨hx, hi⟩ := hlegal
    have hx' : x ∈ b.live := by
      rw [h.live]
      exact hx
    have hin := byte_inside hs (show x + i < x + toUnsigned 64 s.objsize by omega)
    refine ⟨b, write_settled hs h.settled hx' fun a ha => ?_, h.live, fun y hy a hlow hhigh => ?_⟩
    · exact Function.update_of_ne (by omega) _ _
    · by_cases ha : a = x + i
      · rw [advance, ha]
        dsimp only
        rw [Function.update_self, Function.update_self]
      · rw [advance]
        dsimp only
        rw [Function.update_of_ne ha, Function.update_of_ne ha]
        exact h.contents y hy a hlow hhigh
  | flush =>
    obtain ⟨c, hflushed⟩ := flushAll_settled hs h.settled
    have hkept := h.quiet hs hflushed.quiet hbooks
    rw [h.live] at hkept
    exact ⟨c, hflushed.settled, hflushed.live.trans h.live, hkept⟩
  | shrink granted =>
    cases granted with
    | true =>
      obtain ⟨-, c, hshrunk⟩ := kmemCacheShrink_shrunk hs h.settled
      have hkept := h.quiet hs hshrunk.quiet hbooks
      rw [h.live] at hkept
      exact ⟨c, hshrunk.settled, hshrunk.live.trans h.live, hkept⟩
    | false => exact ⟨b, h⟩

/-- Each legal operation can be performed. -/
theorem perform_kept (hs : SinglePage s) {w : CacheWorld} {op : CacheOp} (h : ∃ b, Kept s w b)
    (hlegal : Legal s w op) : ∃ w', perform s w op = some w' ∧ ∃ c, Kept s w' c := by
  obtain ⟨b, hb⟩ := h
  obtain ⟨c, hc⟩ := advance_kept hs hb op hlegal
  refine ⟨advance s w op, ?_, c, hc⟩
  rw [perform, hc.settled.sound, if_neg Bool.false_ne_true]

/-- Each history can be performed, and the books are kept. -/
theorem history_kept (hs : SinglePage s) (memory : Memory) (pages : ℕ → SlabDesc)
    {ops : List CacheOp}
    (hlegal : Admissible (perform s) (Legal s) ⟨openState memory pages, [], memory⟩ ops) :
    ∃ w, exec (perform s) ⟨openState memory pages, [], memory⟩ ops = some w ∧ ∃ b, Kept s w b :=
  exec_total (fun _ _ h hok => perform_kept hs h hok) ⟨_, openState_kept s memory pages⟩ hlegal

/-- A cache that `kmem_cache_open` laid out for an object size and an alignment, with slabs of one
page that are given back at once. -/
structure OpenedCache where
  /-- The cache. -/
  cache : CacheDesc
  /-- The object size asked for. -/
  objsize : ℕ
  /-- The alignment asked for. -/
  align : ℕ
  /-- Objects have a byte. -/
  pos : 0 < objsize
  /-- The size is that of an `int`. -/
  small : objsize < 2 ^ 31
  /-- The alignment is zero or a power of two up to a page. -/
  asked : Asked align
  /-- A constructor keeps to the object. -/
  within : Initializes cache.ctor objsize
  /-- `calculate_sizes` laid the cache out. -/
  laidOut : calculateSizes (openedCache objsize align cache.flags cache.ctor) =
    (cache.toKmemCache, true)
  /-- A slab is a page. -/
  onePage : ooOrder cache.oo = 0
  /-- Pages are given back at once. -/
  atOnce : cache.flags &&& slabDestroyByRcu = 0

theorem OpenedCache.singlePage (o : OpenedCache) : SinglePage o.cache :=
  .opened o.pos o.small o.asked o.within o.laidOut o.onePage o.atOnce

/-- Objects hold what was asked for, and are aligned to it. -/
theorem OpenedCache.placed (o : OpenedCache) {page : ℕ} (hx : x ∈ slabObjects o.cache page) :
    o.objsize ≤ slotSize o.cache ∧ (o.align = 0 ∨ o.align ∣ x) := by
  obtain ⟨size, offset, k, order, hl, -, -, -⟩ :=
    calculateSizes_layout o.pos o.small o.asked o.laidOut
  have hlt := hl.size_lt
  have hsize : slotSize o.cache = size := by rw [slotSize, hl.size_eq, toUnsigned_nat (by omega)]
  refine ⟨hsize ▸ hl.objsize_le, hl.asked.imp_right fun hdvd => ?_⟩
  obtain ⟨i, -, rfl⟩ := mem_slabObjects.mp hx
  have hpage : 2 ^ k ∣ pageSize := by
    rw [show pageSize = 2 ^ 12 from rfl]
    exact Nat.pow_dvd_pow 2 hl.align_le.2
  rw [hsize]
  exact dvd_add (hdvd.trans (hpage.mul_left page)) (hdvd.trans (hl.dvd.mul_left i))

/-- The live objects of a cache do not overlap. -/
theorem live_apart (hs : SinglePage s) {t : SlubState} (h : Accounts s t b) :
    b.live.Pairwise (Apart (slotSize s)) :=
  (h.live_nodup hs).imp_of_mem fun hx hy hne =>
    slabObjects_apart (h.live_object hx) (h.live_object hy) hne

/-- The start of a history. -/
def opened (memory : Memory) (pages : ℕ → SlabDesc) : CacheWorld :=
  ⟨openState memory pages, [], memory⟩

/-- Whether a page may be granted is decidable. -/
instance (t : SlubState) (page : ℕ) : Decidable (Fresh t page) :=
  decidable_of_iff ((0 < page ∧ page * pageSize + pageSize < 2 ^ 64) ∧ page ∉ t.taken ∧
      (t.pages page).locked = false)
    ⟨fun h => ⟨h.1, h.2.1, h.2.2⟩, fun h => ⟨h.addressable, h.notTaken, h.unlocked⟩⟩

/-- Legality is decidable. -/
instance (s : CacheDesc) (w : CacheWorld) : (op : CacheOp) → Decidable (Legal s w op)
  | .alloc _ first second =>
    inferInstanceAs (Decidable (∀ page ∈ first <|> second, Fresh w.state page))
  | .free x => inferInstanceAs (Decidable (x ∈ w.live))
  | .write x i _ => inferInstanceAs (Decidable (x ∈ w.live ∧ i < toUnsigned 64 s.objsize))
  | .flush => isTrue trivial
  | .shrink _ => isTrue trivial

/-- A cache of objects of 512 bytes. -/
def cache512 : CacheDesc := numbered (calculateSizes (openedCache 512 0 0 none)).1 1

theorem cache512_laidOut :
    calculateSizes (openedCache 512 0 0 none) = (cache512.toKmemCache, true) :=
  Prod.ext rfl (by decide +kernel)

theorem cache512_ctor : cache512.ctor = none := by
  obtain ⟨_, _, _, _, _, _, _, hctor⟩ :=
    calculateSizes_layout (by decide) (by decide) (.inl rfl) cache512_laidOut
  exact hctor

theorem cache512_flags : cache512.flags = 0 := (calculateSizes_kept cache512_laidOut).1

/-- The cache as it was laid out. -/
def opened512 : OpenedCache where
  cache := cache512
  objsize := 512
  align := 0
  pos := by decide
  small := by decide
  asked := .inl rfl
  within := by
    rw [cache512_ctor]
    exact fun _ hinit => by cases hinit
  laidOut := by
    rw [cache512_ctor, cache512_flags]
    exact cache512_laidOut
  onePage := by decide +kernel
  atOnce := by
    rw [cache512_flags]
    rfl

/-- A cache of 512 bytes at the start, with pages that were never used. -/
def blankStart : CacheWorld := opened (fun _ => 0) fun _ => ⟨0, 0, 0, 0, false, false, false⟩

/-- Two objects of a page; one is written to, and the other one is taken back. -/
def writeAndFree : List CacheOp :=
  [.alloc true (some 1) none, .alloc false none none, .write 4096 3 7, .free 4608, .flush]

/-- All objects of a page. -/
def fillPage : List CacheOp :=
  .alloc false (some 1) none :: List.replicate 7 (.alloc false none none)

theorem writeAndFree_legal : Admissible (perform opened512.cache) (Legal opened512.cache)
    (opened (fun _ => 0) fun _ => ⟨0, 0, 0, 0, false, false, false⟩) writeAndFree := by
  decide +kernel

theorem fillPage_legal : Admissible (perform opened512.cache) (Legal opened512.cache)
    (opened (fun _ => 0) fun _ => ⟨0, 0, 0, 0, false, false, false⟩) fillPage := by
  decide +kernel

/-- After each history nothing happened that must not, the state agrees with books in which every
object of every slab is in one place, live objects do not overlap, hold what was asked for and are
aligned, and their bytes are what their users wrote. -/
theorem history_accounts (o : OpenedCache) (memory : Memory) (pages : ℕ → SlabDesc)
    {ops : List CacheOp}
    (hlegal : Admissible (perform o.cache) (Legal o.cache) (opened memory pages) ops) :
    ∃ w b, exec (perform o.cache) (opened memory pages) ops = some w ∧ Kept o.cache w b ∧
      w.live.Pairwise (Apart o.objsize) ∧ ∀ x ∈ w.live, o.align = 0 ∨ o.align ∣ x := by
  obtain ⟨w, hexec, b, hkept⟩ := history_kept o.singlePage memory pages hlegal
  have haccounts := hkept.settled.toAccounts
  have hobject : ∀ x ∈ w.live, x ∈ slabObjects o.cache (x / pageSize) := fun x hx =>
    haccounts.live_object (hkept.live ▸ hx)
  refine ⟨w, b, hexec, hkept, ?_, fun x hx => (o.placed (hobject x hx)).2⟩
  have hapart := live_apart o.singlePage haccounts
  rw [hkept.live] at hapart
  refine hapart.imp_of_mem fun {x y} hx _ hxy => ?_
  have hle := (o.placed (hobject x hx)).1
  rw [Apart] at hxy ⊢
  omega

/-- The cache keeps the object that is live, with the byte that was written. -/
theorem history_accounts_write : ∃ w b, exec (perform cache512) blankStart writeAndFree = some w ∧
    Kept cache512 w b ∧ w.live = [4096] ∧ w.wrote 4099 = 7 ∧
      ∀ x ∈ w.live, opened512.align = 0 ∨ opened512.align ∣ x := by
  have hrun : (exec (perform cache512) blankStart writeAndFree).map
      (fun w => (w.live, w.wrote 4099)) = some ([4096], 7) := by decide +kernel
  obtain ⟨w, b, hw, hkept, -, halign⟩ := history_accounts opened512 _ _ writeAndFree_legal
  have hw' : exec (perform cache512) blankStart writeAndFree = some w := hw
  rw [hw', Option.map_some, Option.some_inj, Prod.mk.injEq] at hrun
  exact ⟨w, b, hw, hkept, hrun.1, hrun.2, halign⟩

/-- After each history `slab_alloc` gives an object that is not live; it asks the page allocator
only when all objects of all slabs are live, and gives none only when it is refused then. -/
theorem history_exhausts (o : OpenedCache) (memory : Memory) (pages : ℕ → SlabDesc)
    {ops : List CacheOp} {w : CacheWorld}
    (hlegal : Admissible (perform o.cache) (Legal o.cache) (opened memory pages) ops)
    (hexec : exec (perform o.cache) (opened memory pages) ops = some w) (zero : Bool)
    {first second : Option ℕ} (hnext : Legal o.cache w (.alloc zero first second)) :
    let r := slabAlloc o.cache w.state zero first second
    let full := ∀ q ∈ w.state.taken, ∀ y ∈ slabObjects o.cache q, y ∈ w.live
    (r.1 = 0 ↔ (first <|> second) = none ∧ full) ∧
      (r.1 ≠ 0 → r.1 ∉ w.live ∧ r.1 / pageSize ∈ r.2.taken ∧
        r.1 ∈ slabObjects o.cache (r.1 / pageSize)) ∧
      (r.2.taken = w.state.taken ∨
        full ∧ ∃ page, (first <|> second) = some page ∧ r.2.taken = page :: w.state.taken) := by
  obtain ⟨v, hexec', b, hkept⟩ := history_kept o.singlePage memory pages hlegal
  obtain rfl : v = w := Option.some.inj (hexec'.symm.trans hexec)
  have hs := o.singlePage
  have haccounts := hkept.settled.toAccounts
  obtain ⟨c, hgranted⟩ := slabAlloc_granted hs hkept.settled zero hnext
  have hfull : NoneFree v.state b ↔ ∀ q ∈ v.state.taken, ∀ y ∈ slabObjects o.cache q, y ∈ v.live := by
    rw [← hkept.live]
    constructor
    · rintro ⟨hcpu, hfree⟩ q hq
      refine (haccounts.all_live_iff hs hq).mpr ⟨?_, hfree q hq⟩
      rw [Books.cpuOn, hcpu, ite_self]
    · intro hall
      refine ⟨?_, fun q hq => ((haccounts.all_live_iff hs hq).mp (hall q hq)).2⟩
      refine List.eq_nil_iff_forall_not_mem.mpr fun y hy => ?_
      obtain ⟨q, -, hq, -, hobject⟩ := haccounts.cpu_object hy
      exact haccounts.live_ne_cpu hs (hall q hq y hobject) hy rfl
  dsimp only
  rw [← hfull]
  rcases hgranted.answer with ⟨hne, hlive, htaken⟩ | ⟨hzero, -, htaken, hanswer, hnone⟩
  · have hnodup := hgranted.settled.toAccounts.live_nodup hs
    rw [hlive] at hnodup
    have hmem : (slabAlloc o.cache v.state zero first second).1 ∈ c.live := by
      rw [hlive]
      exact List.mem_cons_self
    refine ⟨iff_of_false hne ?_, fun _ => ⟨?_, hgranted.settled.live _ hmem,
      hgranted.settled.toAccounts.live_object hmem⟩, ?_⟩
    · rintro ⟨hanswer, hnone⟩
      have hobject := hgranted.settled.toAccounts.live_object hmem
      rcases htaken with hall | ⟨q, hq, -⟩
      · have hin := hgranted.settled.live _ hmem
        rw [hall] at hin
        have hlive' := hfull.mp hnone _ hin _ hobject
        rw [← hkept.live] at hlive'
        exact (List.nodup_cons.mp hnodup).1 hlive'
      · rw [hanswer] at hq
        cases hq
    · rw [← hkept.live]
      exact (List.nodup_cons.mp hnodup).1
    · rcases htaken with hall | ⟨q, hq, hall, hnone⟩
      · exact .inl hall
      · exact .inr ⟨hnone, q, hq, hall⟩
  · exact ⟨iff_of_true hzero ⟨hanswer, hnone⟩, fun hne => absurd hzero hne, .inl htaken⟩

/-- A page of eight objects: when no page is granted, all eight are live. -/
theorem history_exhausts_fillPage : ∃ w, exec (perform cache512) blankStart fillPage = some w ∧
    w.live.length = 8 ∧ ∀ q ∈ w.state.taken, ∀ y ∈ slabObjects cache512 q, y ∈ w.live := by
  have hrun : (exec (perform cache512) blankStart fillPage).map
      (fun w => (w.live.length, (slabAlloc cache512 w.state false none none).1)) = some (8, 0) := by
    decide +kernel
  obtain ⟨w, hw, hpair⟩ := Option.map_eq_some_iff.mp hrun
  rw [Prod.mk.injEq] at hpair
  exact ⟨w, hw, hpair.1, ((history_exhausts opened512 _ _ fillPage_legal hw false
    (fun _ h => by cases h)).1.mp hpair.2).2⟩

/-- After each history `kmem_cache_shrink` gives exactly the slabs back that have no live object,
leaves exactly the slabs on the list that have another free object, the fullest one first, and does
not touch live objects. -/
theorem history_shrinks (o : OpenedCache) (memory : Memory) (pages : ℕ → SlabDesc)
    {ops : List CacheOp} {w : CacheWorld}
    (hlegal : Admissible (perform o.cache) (Legal o.cache) (opened memory pages) ops)
    (hexec : exec (perform o.cache) (opened memory pages) ops = some w) :
    let r := kmemCacheShrink o.cache w.state true
    r.1 = 0 ∧ r.2.broken = false ∧
      (∀ q, q ∈ r.2.taken ↔ q ∈ w.state.taken ∧ ∃ x ∈ w.live, x / pageSize = q) ∧
      (∀ q, q ∈ r.2.partialList ↔ q ∈ r.2.taken ∧ ∃ y ∈ slabObjects o.cache q, y ∉ w.live) ∧
      r.2.partialList.Nodup ∧ r.2.nrPartial = r.2.partialList.length ∧
      (r.2.partialList.Pairwise fun p q => (r.2.pages q).inuse ≤ (r.2.pages p).inuse) ∧
      ∀ x ∈ w.live, Same w.state.memory r.2.memory x (slotSize o.cache) := by
  obtain ⟨v, hexec', b, hkept⟩ := history_kept o.singlePage memory pages hlegal
  obtain rfl : v = w := Option.some.inj (hexec'.symm.trans hexec)
  obtain ⟨hzero, c, hshrunk⟩ := kmemCacheShrink_shrunk o.singlePage hkept.settled
  have haccounts := hshrunk.settled.toAccounts
  have hlive : c.live = v.live := hshrunk.live.trans hkept.live
  refine ⟨hzero, haccounts.sound, fun q => ⟨fun hq => ⟨hshrunk.taken hq, ?_⟩, ?_⟩, fun q => ?_,
    haccounts.listed, haccounts.counted, hshrunk.sorted, fun x hx a hlow hhigh => ?_⟩
  · rw [← hkept.live]
    exact hshrunk.occupied q hq
  · rintro ⟨-, x, hx, rfl⟩
    exact haccounts.live x (hlive ▸ hx)
  · rw [haccounts.mem_listed q, ← hlive]
    refine and_congr_right fun hq => ?_
    have hall := haccounts.all_live_iff o.singlePage hq
    rw [and_iff_right (Books.cpuOn_idle hshrunk.frozen q)] at hall
    rw [and_iff_right (Books.frozen_ne hshrunk.frozen q), ne_eq, ← hall]
    push Not
    exact Iff.rfl
  · exact hshrunk.quiet.memory a (.inr ⟨x, hkept.live ▸ hx, hlow, hhigh⟩)

/-- With one object live, its page stays on the list. -/
theorem history_shrinks_write : ∃ w, exec (perform cache512) blankStart writeAndFree = some w ∧
    w.live = [4096] ∧ 1 ∈ (kmemCacheShrink cache512 w.state true).2.taken := by
  have hrun : (exec (perform cache512) blankStart writeAndFree).map
      (fun w => (w.live, w.state.taken)) = some ([4096], [1]) := by decide +kernel
  obtain ⟨w, hw, hpair⟩ := Option.map_eq_some_iff.mp hrun
  rw [Prod.mk.injEq] at hpair
  have hshrinks := history_shrinks opened512 _ _ writeAndFree_legal hw
  refine ⟨w, hw, hpair.1, (hshrinks.2.2.1 1).mpr ⟨?_, 4096, ?_, by decide⟩⟩
  · rw [hpair.2]
    exact List.mem_singleton_self 1
  · rw [hpair.1]
    exact List.mem_singleton_self 4096

/-- After each history `kmem_cache_close` gives exactly the slabs back that have no live object; it
reports live objects only when one of the slabs left has another object that is not live. -/
theorem history_closes (o : OpenedCache) (memory : Memory) (pages : ℕ → SlabDesc)
    {ops : List CacheOp} {w : CacheWorld}
    (hlegal : Admissible (perform o.cache) (Legal o.cache) (opened memory pages) ops)
    (hexec : exec (perform o.cache) (opened memory pages) ops = some w) :
    let r := kmemCacheClose o.cache w.state
    r.2.broken = false ∧
      (∀ q, q ∈ r.2.taken ↔ q ∈ w.state.taken ∧ ∃ x ∈ w.live, x / pageSize = q) ∧
      (r.1 = 0 ∨ r.1 = 1) ∧
      (r.1 = 1 ↔ ∃ x ∈ w.live, ∃ y ∈ slabObjects o.cache (x / pageSize), y ∉ w.live) := by
  obtain ⟨v, hexec', b, hkept⟩ := history_kept o.singlePage memory pages hlegal
  obtain rfl : v = w := Option.some.inj (hexec'.symm.trans hexec)
  obtain ⟨c, hclosed⟩ := kmemCacheClose_closed o.singlePage hkept.settled
  have haccounts := hclosed.settled.toAccounts
  have hlive : c.live = v.live := hclosed.live.trans hkept.live
  have hanswer := hclosed.answer
  have hoccupied := hclosed.occupied
  rw [hkept.live] at hanswer hoccupied
  have hin : ∀ x ∈ v.live, x / pageSize ∈ (kmemCacheClose o.cache v.state).2.taken := fun x hx =>
    haccounts.live x (hlive ▸ hx)
  refine ⟨haccounts.sound, fun q => ⟨fun hq => ⟨hclosed.taken hq, hoccupied q hq⟩, ?_⟩, ?_, ?_⟩
  · rintro ⟨-, x, hx, rfl⟩
    exact hin x hx
  · rcases hanswer with ⟨hone, -⟩ | ⟨hzero, -⟩
    · exact .inr hone
    · exact .inl hzero
  · rcases hanswer with ⟨hone, q, hq, y, hy, hnot⟩ | ⟨hzero, hall⟩
    · obtain ⟨x, hx, rfl⟩ := hoccupied q hq
      exact iff_of_true hone ⟨x, hx, y, hy, hnot⟩
    · refine iff_of_false (by rw [hzero]; decide) ?_
      rintro ⟨x, hx, y, hy, hnot⟩
      exact hnot (hall _ (hin x hx) y hy)

/-- A page of which all objects are live is not seen. -/
theorem history_closes_fillPage : ∃ w, exec (perform cache512) blankStart fillPage = some w ∧
    w.live.length = 8 ∧ (kmemCacheClose cache512 w.state).1 = 0 ∧
      ¬∃ x ∈ w.live, ∃ y ∈ slabObjects cache512 (x / pageSize), y ∉ w.live := by
  have hrun : (exec (perform cache512) blankStart fillPage).map
      (fun w => (w.live.length, (kmemCacheClose cache512 w.state).1)) = some (8, 0) := by
    decide +kernel
  obtain ⟨w, hw, hpair⟩ := Option.map_eq_some_iff.mp hrun
  rw [Prod.mk.injEq] at hpair
  have hcloses := history_closes opened512 _ _ fillPage_legal hw
  refine ⟨w, hw, hpair.1, hpair.2, fun hleft => ?_⟩
  have hone := hcloses.2.2.2.mpr hleft
  exact absurd (hpair.2.symm.trans hone) (by decide)

end BiscuitOS.SlubCacheHistory
