import BiscuitOS.KmallocModel

/-!
# Histories of all caches

Caches are used side by side over one memory and one array of pages. An object
goes back to the cache it is from, which `kfree` reads from its page. No
operation on one cache changes a page of another one.
-/

namespace BiscuitOS.KmallocHistory

open ByteMemory LinkedCells MachineWord TransitionRun SlubLayout SlubSizes SlubFreelist
  SlubCacheModel SlubCacheBooks SlubCacheSteps SlubCacheAlloc SlubCacheFree SlubCacheShrink
  SlubCacheHistory KmallocModel

/-- The memory and the pages, and what each cache has for itself. -/
structure Machine where
  /-- The bytes of the memory. -/
  memory : Memory
  /-- `struct page`, by page number. -/
  pages : ℕ → SlabDesc
  /-- The caches; their memory and pages are those of the machine. -/
  caches : ℕ → SlubState
  /-- Something happened that must not. -/
  broken : Bool

/-- What a cache works on. -/
def Machine.view (m : Machine) (i : ℕ) : SlubState :=
  { m.caches i with memory := m.memory, pages := m.pages }

/-- Take over what a cache has done. -/
def Machine.put (m : Machine) (i : ℕ) (t : SlubState) : Machine where
  memory := t.memory
  pages := t.pages
  caches := Function.update m.caches i t
  broken := m.broken || t.broken

/-- The machine, the live objects of each cache and what their users wrote. -/
structure World where
  /-- The machine. -/
  machine : Machine
  /-- The objects of a cache that were handed out and not taken back. -/
  live : ℕ → List ℕ
  /-- What the bytes of live objects should be. -/
  wrote : Memory

/-- What the caches are asked to do, and what their users do. -/
inductive Op
  /-- `kmem_cache_alloc` of a cache. -/
  | cacheAlloc (i : ℕ) (zero : Bool) (first second : Option ℕ)
  /-- `__kmalloc` of a size whose cache has slabs of one page. -/
  | kmalloc (size : ℕ) (zero : Bool) (first second : Option ℕ)
  /-- `kmem_cache_free`. -/
  | cacheFree (i x : ℕ)
  /-- `kfree`. -/
  | kfree (x : ℕ)
  /-- A user writes a byte of an object. -/
  | write (x i v : ℕ)
  /-- `flush_all` of a cache. -/
  | flush (i : ℕ)
  /-- `kmem_cache_shrink` of a cache, between the `kmalloc` of its array and the `kfree`. -/
  | shrink (i : ℕ) (granted : Bool)

variable (caches : ℕ → OpenedCache)

/-- `kmem_cache_alloc`. -/
def cacheAlloc (w : World) (i : ℕ) (zero : Bool) (first second : Option ℕ) : World :=
  let s := (caches i).cache
  let r := slabAlloc s (w.machine.view i) zero first second
  let machine := w.machine.put i r.2
  if r.1 = 0 then { w with machine := machine }
  else
    { machine := machine
      live := Function.update w.live i (r.1 :: w.live i)
      wrote := fun a => if r.1 ≤ a ∧ a < r.1 + toUnsigned 64 s.objsize then
        (if zero then 0 else r.2.memory a) else w.wrote a }

/-- Forget an object that is taken back. -/
def forget (live : ℕ → List ℕ) (x : ℕ) : ℕ → List ℕ := fun i => (live i).erase x

/-- `kfree`; an object of no slab goes to the page allocator, which is not followed. -/
def kfree (w : World) (x : ℕ) : World :=
  if x ≤ zeroSizePtr then w
  else
    let page := x / pageSize
    let i := (w.machine.pages page).slab
    if (w.machine.pages page).pageSlab then
      { w with
        machine := w.machine.put i (slabFree (caches i).cache (w.machine.view i) page x)
        live := forget w.live x }
    else { w with machine := { w.machine with broken := true } }

/-- Perform an operation. -/
def advance (w : World) : Op → World
  | .cacheAlloc i zero first second => cacheAlloc caches w i zero first second
  | .kmalloc size zero first second =>
    match getSlab size with
    | none => w
    | some i => cacheAlloc caches w i zero first second
  | .cacheFree i x =>
    { w with
      machine := w.machine.put i (kmemCacheFree (caches i).cache (w.machine.view i) x)
      live := forget w.live x }
  | .kfree x => kfree caches w x
  | .write x i v =>
    { w with
      machine := { w.machine with memory := Function.update w.machine.memory (x + i) v }
      wrote := Function.update w.wrote (x + i) v }
  | .flush i => { w with machine := w.machine.put i (flushAll (caches i).cache (w.machine.view i)) }
  | .shrink i granted =>
    let r := kmemCacheShrink (caches i).cache (w.machine.view i) granted
    { w with machine := w.machine.put i r.2 }

/-- Perform an operation, unless something happens that must not. -/
def perform (w : World) (op : Op) : Option World :=
  if (advance caches w op).machine.broken then none else some (advance caches w op)

/-- The largest size in `kmalloc_caches` of which eight objects fit a page. -/
def largestSize : ℕ := 512

/-- A page with an address and no flag set. -/
def Unused (m : Machine) (page : ℕ) : Prop :=
  Addressable page ∧ (m.pages page).pageSlab = false ∧ (m.pages page).locked = false

/-- What the page allocator and the users promise: a page that is granted has no flag set, a size
is that of a cache with slabs of one page, and objects are freed and written to while they are
live. -/
def Legal (w : World) : Op → Prop
  | .cacheAlloc _ _ first second => ∀ page ∈ first <|> second, Unused w.machine page
  | .kmalloc size _ first second => size ≤ largestSize ∧
      ∀ page ∈ first <|> second, Unused w.machine page
  | .cacheFree i x => x ∈ w.live i
  | .kfree x => x = 0 ∨ x = zeroSizePtr ∨ ∃ i, x ∈ w.live i
  | .write x i _ => ∃ j, x ∈ w.live j ∧ i < toUnsigned 64 (caches j).cache.objsize
  | .flush _ => True
  | .shrink _ _ => True

/-- The books of all caches are kept, no page is with two caches, and the bytes of live objects are
what their users wrote. -/
structure Sound (w : World) (books : ℕ → Books) : Prop where
  /-- The books of each cache. -/
  settled : ∀ i, Settled (caches i).cache (w.machine.view i) (books i)
  /-- The live objects. -/
  live : ∀ i, (books i).live = w.live i
  /-- A page is with one cache. -/
  own : ∀ i j page, page ∈ (w.machine.caches i).taken → page ∈ (w.machine.caches j).taken → i = j
  /-- The contents of live objects. -/
  contents : ∀ i, ∀ x ∈ w.live i, ∀ a, x ≤ a → a < x + toUnsigned 64 (caches i).cache.objsize →
    w.machine.memory a = w.wrote a
  /-- Nothing happened that must not. -/
  sound : w.machine.broken = false

variable {caches} {w : World} {books : ℕ → Books}

/-- A cache depends on its own pages only. -/
theorem settled_frame {s : CacheDesc} (hs : SinglePage s) {t : SlubState} {b : Books}
    (h : Settled s t b) {memory : Memory} {pages : ℕ → SlabDesc}
    (hpages : ∀ q ∈ t.taken, pages q = t.pages q)
    (hmemory : ∀ a, a / pageSize ∈ t.taken → memory a = t.memory a) :
    Settled s { t with memory := memory, pages := pages } b := by
  have hslot : ∀ q ∈ t.taken, ∀ x ∈ slabObjects s q, Same t.memory memory x (slotSize s) := by
    intro q hq x hx a hlow hhigh
    have hin := slabObjects_inside hx
    refine hmemory a ?_
    have hquot : a / pageSize = q := by
      refine Nat.div_eq_of_lt_le (by omega) ?_
      rw [Nat.succ_mul]
      omega
    rwa [hquot]
  have haccounts := h.toAccounts
  have hempty := emptySlabs_congr (t := t) (u := { t with memory := memory, pages := pages }) rfl
    fun q hq => congrArg SlabDesc.inuse (hpages q ((h.mem_listed q).mp hq).1)
  refine ⟨?_, h.unlocked, h.current⟩
  exact
    { sound := h.sound
      nodup := h.nodup
      page := fun q hq => (h.page q hq).congr hs (hpages q hq)
        (fun x hx => hslot q hq x (haccounts.free_object hq hx)) .rfl rfl rfl Iff.rfl Iff.rfl
      live := h.live
      cpuStack := h.cpuStack.same hs.pointer fun x hx => by
        obtain ⟨q, -, hq, -, hobject⟩ := haccounts.cpu_object hx
        exact hslot q hq x hobject
      frozen := h.frozen
      idle := h.idle
      listed := h.listed
      mem_listed := h.mem_listed
      counted := h.counted
      node := h.node
      empties := by
        rw [hempty]
        exact h.empties }

/-- One cache has done something with its own pages and those that were granted to it. -/
theorem put_sound (h : Sound caches w books) {i : ℕ} {t : SlubState} {c : Books} {mine : List ℕ}
    {quiet : List ℕ} (hsettled : Settled (caches i).cache t c)
    (hquiet : Quiet (caches i).cache quiet mine (w.machine.view i) t)
    (hmine : ∀ q ∈ mine, ∀ j, j ≠ i → q ∉ (w.machine.caches j).taken) (htaken : t.taken ⊆ mine)
    {live : ℕ → List ℕ} (hlive : c.live = live i) (hothers : ∀ j, j ≠ i → live j = w.live j)
    {wrote : Memory} (hcontents : ∀ x ∈ live i, ∀ a, x ≤ a →
      a < x + toUnsigned 64 (caches i).cache.objsize → t.memory a = wrote a)
    (hwrote : ∀ j, j ≠ i → ∀ a, a / pageSize ∈ (w.machine.caches j).taken → wrote a = w.wrote a) :
    Sound caches ⟨w.machine.put i t, live, wrote⟩ (Function.update books i c) := by
  have hsame : ∀ j, j ≠ i → (w.machine.put i t).caches j = w.machine.caches j :=
    fun j hj => Function.update_of_ne hj _ _
  have hself : (w.machine.put i t).caches i = t := Function.update_self ..
  have hview : (w.machine.put i t).view i = t := by
    rw [Machine.view, hself]
    rfl
  have hbytes : ∀ j, j ≠ i → ∀ a, a / pageSize ∈ (w.machine.caches j).taken →
      t.memory a = w.machine.memory a := fun j hj a ha =>
    hquiet.memory a (.inl fun hin => hmine _ hin j hj ha)
  refine
    { settled := fun j => ?_
      live := fun j => ?_
      own := fun j k q hj hk => ?_
      contents := fun j x hx a hlow hhigh => ?_
      sound := ?_ }
  · by_cases hj : j = i
    · subst hj
      rw [hview, Function.update_self]
      exact hsettled
    · have hpages : ∀ q ∈ (w.machine.view j).taken, t.pages q = (w.machine.view j).pages q :=
        fun q hq => hquiet.pages q fun hin => hmine q hin j hj hq
      have hframe := settled_frame (caches j).singlePage (h.settled j) hpages (hbytes j hj)
      have heq : (w.machine.put i t).view j =
          { w.machine.view j with memory := t.memory, pages := t.pages } := by
        rw [Machine.view, hsame j hj]
        rfl
      rw [heq, Function.update_of_ne hj]
      exact hframe
  · by_cases hj : j = i
    · rw [hj, Function.update_self, hlive]
    · rw [Function.update_of_ne hj, h.live j]
      exact (hothers j hj).symm
  · dsimp only at hj hk
    by_cases hji : j = i
    · by_cases hki : k = i
      · rw [hji, hki]
      · rw [hji, hself] at hj
        rw [hsame k hki] at hk
        exact absurd hk (hmine q (htaken hj) k hki)
    · by_cases hki : k = i
      · rw [hki, hself] at hk
        rw [hsame j hji] at hj
        exact absurd hj (hmine q (htaken hk) j hji)
      · rw [hsame j hji] at hj
        rw [hsame k hki] at hk
        exact h.own j k q hj hk
  · dsimp only at hx ⊢
    by_cases hj : j = i
    · subst hj
      exact hcontents x hx a hlow hhigh
    · rw [hothers j hj] at hx
      have hobject := (h.settled j).toAccounts.live_object ((h.live j).symm ▸ hx)
      have hin := (h.settled j).live x ((h.live j).symm ▸ hx)
      have hinside := slabObjects_inside hobject
      have hsize := (caches j).singlePage.objsize
      have hquot : a / pageSize = x / pageSize := by
        refine Nat.div_eq_of_lt_le (by omega) ?_
        rw [Nat.succ_mul]
        omega
      have hpage : a / pageSize ∈ (w.machine.caches j).taken := hquot ▸ hin
      rw [hwrote j hj a hpage]
      exact (hbytes j hj a hpage).trans (h.contents j x hx a hlow hhigh)
  · have hbroken := hsettled.sound
    have hbefore := h.sound
    rw [Machine.put, hbefore, hbroken]
    rfl

/-- The pages of a cache are not with another one. -/
theorem taken_apart (h : Sound caches w books) (i : ℕ) :
    ∀ q ∈ (w.machine.view i).taken, ∀ j, j ≠ i → q ∉ (w.machine.caches j).taken :=
  fun q hq j hj hin => hj (h.own j i q hin hq)

/-- A page without a flag is with no cache. -/
theorem unused_apart (h : Sound caches w books) {page : ℕ} (hpage : Unused w.machine page) (i : ℕ) :
    Fresh (w.machine.view i) page where
  addressable := hpage.1
  notTaken := fun hin => by
    have hset := ((h.settled i).page page hin).pageSlab
    exact Bool.false_ne_true (hpage.2.1.symm.trans hset)
  unlocked := hpage.2.2

/-- An object that is live in one cache is not live in another one. -/
theorem live_once (h : Sound caches w books) {i j x : ℕ} (hi : x ∈ w.live i) (hj : x ∈ w.live j) :
    i = j :=
  h.own i j _ ((h.settled i).live x ((h.live i).symm ▸ hi))
    ((h.settled j).live x ((h.live j).symm ▸ hj))

/-- `kmem_cache_alloc` of one of the caches. -/
theorem cacheAlloc_sound (h : Sound caches w books) (i : ℕ) (zero : Bool) {first second : Option ℕ}
    (hlegal : ∀ page ∈ first <|> second, Unused w.machine page) :
    ∃ books', Sound caches (cacheAlloc caches w i zero first second) books' := by
  have hs := (caches i).singlePage
  obtain ⟨c, hgranted⟩ := slabAlloc_granted hs (h.settled i) zero
    fun q hq => unused_apart h (hlegal q hq) i
  have hmine : ∀ q ∈ (w.machine.view i).taken ++ (first <|> second).toList, ∀ j, j ≠ i →
      q ∉ (w.machine.caches j).taken := by
    intro q hq j hj
    rcases List.mem_append.mp hq with hq | hq
    · exact taken_apart h i q hq j hj
    · exact (unused_apart h (hlegal q (Option.mem_toList.mp hq)) j).notTaken
  have htaken : (slabAlloc (caches i).cache (w.machine.view i) zero first second).2.taken ⊆
      (w.machine.view i).taken ++ (first <|> second).toList := by
    intro q hq
    rcases hgranted.answer with ⟨-, -, hall | ⟨page, hpage, hall, -⟩⟩ | ⟨-, -, hall, -⟩
    · exact List.mem_append_left _ (hall ▸ hq)
    · rw [hall] at hq
      rw [hpage, Option.toList_some, List.mem_append, List.mem_singleton]
      exact (List.mem_cons.mp hq).symm
    · exact List.mem_append_left _ (hall ▸ hq)
  have hkept : ∀ x ∈ w.live i, ∀ a, x ≤ a → a < x + toUnsigned 64 (caches i).cache.objsize →
      (slabAlloc (caches i).cache (w.machine.view i) zero first second).2.memory a = w.wrote a :=
    fun x hx a hlow hhigh => (hgranted.quiet.memory a (.inr ⟨x, (h.live i).symm ▸ hx, hlow,
      byte_inside hs hhigh⟩)).trans (h.contents i x hx a hlow hhigh)
  rw [cacheAlloc]
  rcases hgranted.answer with ⟨hne, hlive, -⟩ | ⟨hzero, hlive, -⟩
  · rw [if_neg hne]
    have hin : (slabAlloc (caches i).cache (w.machine.view i) zero first second).1 ∈ c.live := by
      rw [hlive]
      exact List.mem_cons_self
    have hobject := hgranted.settled.toAccounts.live_object hin
    refine ⟨_, put_sound h hgranted.settled hgranted.quiet hmine htaken ?_
      (fun j hj => Function.update_of_ne hj _ _) (fun x hx a hlow hhigh => ?_) fun j hj a ha => ?_⟩
    · rw [Function.update_self, hlive, h.live i]
    · rw [Function.update_self] at hx
      rcases List.mem_cons.mp hx with heq | hx
      · rw [heq] at hlow hhigh
        rw [if_pos ⟨hlow, hhigh⟩]
        cases zero with
        | true => exact slabAlloc_zero hne hlow hhigh
        | false => rfl
      · have hapart := cons_apart hs hgranted.settled hlive x ((h.live i).symm ▸ hx)
        have hbyte := byte_inside hs hhigh
        have hsize := hs.objsize
        rw [Apart] at hapart
        rw [if_neg (by omega)]
        exact hkept x hx a hlow hhigh
    · refine if_neg fun hbyte => ?_
      have hinside := slabObjects_inside hobject
      have hsize := hs.objsize
      have hquot : a / pageSize =
          (slabAlloc (caches i).cache (w.machine.view i) zero first second).1 / pageSize := by
        refine Nat.div_eq_of_lt_le (by omega) ?_
        rw [Nat.succ_mul]
        omega
      exact hmine _ (htaken (hgranted.settled.live _ hin)) j hj (hquot ▸ ha)
  · rw [if_pos hzero]
    exact ⟨_, put_sound h hgranted.settled hgranted.quiet hmine htaken (hlive.trans (h.live i))
      (fun _ _ => rfl) hkept fun _ _ _ _ => rfl⟩

/-- An object goes back to its cache. -/
theorem free_sound (h : Sound caches w books) {i x : ℕ} (hx : x ∈ w.live i) :
    ∃ books', Sound caches
      { w with
        machine := w.machine.put i (kmemCacheFree (caches i).cache (w.machine.view i) x)
        live := forget w.live x } books' := by
  have hs := (caches i).singlePage
  have hx' : x ∈ (books i).live := (h.live i).symm ▸ hx
  obtain ⟨c, hsettled, hlive, hquiet, htaken⟩ := kmemCacheFree_settled hs (h.settled i) hx'
  refine ⟨_, put_sound h hsettled hquiet (taken_apart h i) htaken ?_ (fun j hj => ?_)
    (fun y hy a hlow hhigh => ?_) fun _ _ _ _ => rfl⟩
  · rw [hlive, h.live i]
    rfl
  · exact List.erase_of_not_mem fun hin => hj (live_once h hin hx)
  · have hy' : y ∈ (books i).live.erase x := (h.live i).symm ▸ hy
    exact (hquiet.memory a (.inr ⟨y, hy', hlow, byte_inside hs hhigh⟩)).trans
      (h.contents i y (List.mem_of_mem_erase hy) a hlow hhigh)

/-- `kfree` finds the cache of a live object through its page. -/
theorem kfree_eq (hindex : ∀ i, (caches i).cache.index = i) (h : Sound caches w books) {i x : ℕ}
    (hx : x ∈ w.live i) : kfree caches w x = { w with
      machine := w.machine.put i (kmemCacheFree (caches i).cache (w.machine.view i) x)
      live := forget w.live x } := by
  have hx' : x ∈ (books i).live := (h.live i).symm ▸ hx
  have hpage := (h.settled i).page _ ((h.settled i).live x hx')
  have hslab : (w.machine.pages (x / pageSize)).slab = i := hpage.slab.trans (hindex i)
  have hset : (w.machine.pages (x / pageSize)).pageSlab = true := hpage.pageSlab
  have hlarge : ¬x ≤ zeroSizePtr := by
    have hpos := hpage.addressable.1
    rw [zeroSizePtr]
    intro hle
    rw [Nat.div_eq_of_lt (by rw [pageSize]; omega)] at hpos
    omega
  rw [kfree, if_neg hlarge]
  dsimp only
  rw [hslab, if_pos hset]
  rfl

/-- Each operation keeps the books of all caches. -/
theorem advance_sound (hindex : ∀ i, (caches i).cache.index = i) (h : Sound caches w books)
    (op : Op) (hlegal : Legal caches w op) : ∃ books', Sound caches (advance caches w op) books' := by
  cases op with
  | cacheAlloc i zero first second => exact cacheAlloc_sound h i zero hlegal
  | kmalloc size zero first second =>
    rw [advance]
    cases getSlab size with
    | none => exact ⟨books, h⟩
    | some i => exact cacheAlloc_sound h i zero hlegal.2
  | cacheFree i x => exact free_sound h hlegal
  | kfree x =>
    rw [advance]
    rcases hlegal with rfl | rfl | ⟨i, hx⟩
    · exact ⟨books, h⟩
    · exact ⟨books, h⟩
    · rw [kfree_eq hindex h hx]
      exact free_sound h hx
  | write x i v =>
    obtain ⟨j, hx, hi⟩ := hlegal
    have hs := (caches j).singlePage
    have hx' : x ∈ (books j).live := (h.live j).symm ▸ hx
    have hobject := (h.settled j).toAccounts.live_object hx'
    have hin := (h.settled j).live x hx'
    have hinside := slabObjects_inside hobject
    have hsize := hs.objsize
    have hquot : (x + i) / pageSize = x / pageSize := by
      refine Nat.div_eq_of_lt_le (by omega) ?_
      rw [Nat.succ_mul]
      omega
    refine ⟨books, fun k => ?_, h.live, h.own, fun k y hy a hlow hhigh => ?_, h.sound⟩
    · by_cases hk : k = j
      · subst hk
        exact write_settled hs (h.settled k) hx' fun a ha => Function.update_of_ne (by omega) _ _
      · refine settled_frame (caches k).singlePage (h.settled k) (fun _ _ => rfl) fun a ha => ?_
        refine Function.update_of_ne (fun heq => hk ?_) _ _
        rw [heq, hquot] at ha
        exact h.own k j _ ha hin
    · rw [advance]
      dsimp only
      by_cases ha : a = x + i
      · rw [ha, Function.update_self, Function.update_self]
      · rw [Function.update_of_ne ha, Function.update_of_ne ha]
        exact h.contents k y hy a hlow hhigh
  | flush i =>
    obtain ⟨c, hflushed⟩ := flushAll_settled (caches i).singlePage (h.settled i)
    refine ⟨_, put_sound h hflushed.settled hflushed.quiet (taken_apart h i) hflushed.taken
      (hflushed.live.trans (h.live i)) (fun _ _ => rfl) (fun y hy a hlow hhigh => ?_)
      fun _ _ _ _ => rfl⟩
    exact (hflushed.quiet.memory a (.inr ⟨y, (h.live i).symm ▸ hy, hlow,
      byte_inside (caches i).singlePage hhigh⟩)).trans (h.contents i y hy a hlow hhigh)
  | shrink i granted =>
    cases granted with
    | true =>
      obtain ⟨-, c, hshrunk⟩ := kmemCacheShrink_shrunk (caches i).singlePage (h.settled i)
      refine ⟨_, put_sound h hshrunk.settled hshrunk.quiet (taken_apart h i) hshrunk.taken
        (hshrunk.live.trans (h.live i)) (fun _ _ => rfl) (fun y hy a hlow hhigh => ?_)
        fun _ _ _ _ => rfl⟩
      exact (hshrunk.quiet.memory a (.inr ⟨y, (h.live i).symm ▸ hy, hlow,
        byte_inside (caches i).singlePage hhigh⟩)).trans (h.contents i y hy a hlow hhigh)
    | false =>
      have hquiet : Quiet (caches i).cache [] (w.machine.view i).taken (w.machine.view i)
          (w.machine.view i) := .refl
      exact ⟨_, put_sound h (h.settled i) hquiet (taken_apart h i) (fun _ hq => hq) (h.live i)
        (fun _ _ => rfl) (h.contents i) fun _ _ _ _ => rfl⟩

/-- The start: caches that were just opened. -/
def opened (memory : Memory) (pages : ℕ → SlabDesc) : World where
  machine := ⟨memory, pages, fun _ => openState memory pages, false⟩
  live := fun _ => []
  wrote := memory

/-- Caches that were just opened have nothing to account for. -/
theorem opened_sound (caches : ℕ → OpenedCache) (memory : Memory) (pages : ℕ → SlabDesc) :
    Sound caches (opened memory pages) fun _ => ⟨[], [], fun _ => [], none, none⟩ where
  settled := fun i => (openState_kept (caches i).cache memory pages).settled
  live := fun _ => rfl
  own := fun _ _ _ hi => (by cases hi)
  contents := fun _ x hx => (by cases hx)
  sound := rfl

/-- Each legal operation can be performed. -/
theorem perform_sound (hindex : ∀ i, (caches i).cache.index = i) {w : World} {op : Op}
    (h : ∃ books, Sound caches w books) (hlegal : Legal caches w op) :
    ∃ w', perform caches w op = some w' ∧ ∃ books, Sound caches w' books := by
  obtain ⟨books, hb⟩ := h
  obtain ⟨books', hc⟩ := advance_sound hindex hb op hlegal
  refine ⟨advance caches w op, ?_, books', hc⟩
  rw [perform, hc.sound, if_neg Bool.false_ne_true]

/-- Each history can be performed, and the books of all caches are kept. -/
theorem history_kept (hindex : ∀ i, (caches i).cache.index = i) (memory : Memory)
    (pages : ℕ → SlabDesc) {ops : List Op}
    (hlegal : Admissible (perform caches) (Legal caches) (opened memory pages) ops) :
    ∃ w, exec (perform caches) (opened memory pages) ops = some w ∧ ∃ books, Sound caches w books :=
  exec_total (fun _ _ h hok => perform_sound hindex h hok) ⟨_, opened_sound caches memory pages⟩
    hlegal

/-- Live objects, of one cache or of two, do not overlap. -/
theorem Sound.apart (h : Sound caches w books) {i j x y : ℕ} (hx : x ∈ w.live i)
    (hy : y ∈ w.live j) (hne : x ≠ y) :
    x + (caches i).objsize ≤ y ∨ y + (caches j).objsize ≤ x := by
  have hx' : x ∈ (books i).live := (h.live i).symm ▸ hx
  have hy' : y ∈ (books j).live := (h.live j).symm ▸ hy
  have hxobject := (h.settled i).toAccounts.live_object hx'
  have hyobject := (h.settled j).toAccounts.live_object hy'
  have hxsize := ((caches i).placed hxobject).1
  have hysize := ((caches j).placed hyobject).1
  by_cases hij : i = j
  · subst hij
    have hapart := slabObjects_apart hxobject hyobject hne
    rw [Apart] at hapart
    omega
  · have hpage : x / pageSize ≠ y / pageSize := fun heq => hij
      (h.own i j _ ((h.settled i).live x hx') (heq ▸ (h.settled j).live y hy'))
    have hxin := slabObjects_inside hxobject
    have hyin := slabObjects_inside hyobject
    rcases Nat.lt_or_gt_of_ne hpage with hlt | hlt
    · have hrow : (x / pageSize + 1) * pageSize ≤ y / pageSize * pageSize :=
        Nat.mul_le_mul_right _ hlt
      rw [Nat.succ_mul] at hrow
      omega
    · have hrow : (y / pageSize + 1) * pageSize ≤ x / pageSize * pageSize :=
        Nat.mul_le_mul_right _ hlt
      rw [Nat.succ_mul] at hrow
      omega

/-- No object is live twice. -/
theorem Sound.nodup (h : Sound caches w books) (i : ℕ) : (w.live i).Nodup := by
  rw [← h.live i]
  exact (h.settled i).toAccounts.live_nodup (caches i).singlePage

/-- An object that was put in front is forgotten again. -/
theorem forget_update {live : ℕ → List ℕ} {i x : ℕ} (hfresh : ∀ j, x ∉ live j) :
    forget (Function.update live i (x :: live i)) x = live := by
  funext j
  rw [forget]
  by_cases hj : j = i
  · rw [hj, Function.update_self, List.erase_cons_head]
  · rw [Function.update_of_ne hj]
    exact List.erase_of_not_mem (hfresh j)

/-- The object sizes of the caches of `kmalloc_caches` of which eight objects fit a page. -/
def smallSizes : List ℕ := [8, 16, 32, 64, 96, 128, 192, 256, 512]

/-- The caches of these sizes have slabs of one page. -/
theorem kmallocCaches_laidOut :
    ∀ objsize ∈ smallSizes,
      (calculateSizes (openedCache objsize 8 0 none)).2 = true ∧
        ooOrder (calculateSizes (openedCache objsize 8 0 none)).1.oo = 0 := by
  decide +kernel

/-- What `create_kmalloc_cache` opens. -/
def createKmallocCache (index objsize : ℕ) : CacheDesc :=
  numbered (calculateSizes (openedCache objsize 8 0 none)).1 index

/-- A layout that succeeded. -/
theorem laidOut_of_snd {laid : KmemCache × Bool} (h : laid.2 = true) : laid = (laid.1, true) :=
  Prod.ext rfl h

theorem smallSizes_range : ∀ objsize ∈ smallSizes, 0 < objsize ∧ objsize < 2 ^ 31 := by
  decide

theorem createKmallocCache_laidOut {objsize : ℕ} (h : objsize ∈ smallSizes) (index : ℕ) :
    calculateSizes (openedCache objsize 8 0 none) =
      ((createKmallocCache index objsize).toKmemCache, true) := by
  rw [createKmallocCache, numbered_toKmemCache]
  exact laidOut_of_snd (kmallocCaches_laidOut objsize h).1

theorem createKmallocCache_kept {objsize : ℕ} (h : objsize ∈ smallSizes) (index : ℕ) :
    (createKmallocCache index objsize).flags = 0 ∧
      (createKmallocCache index objsize).ctor = none := by
  have hlaid := createKmallocCache_laidOut h index
  have hrange := smallSizes_range objsize h
  obtain ⟨_, _, _, _, _, _, _, hctor⟩ :=
    calculateSizes_layout hrange.1 hrange.2 (.inr ⟨3, by decide, rfl⟩) hlaid
  exact ⟨(calculateSizes_kept hlaid).1, hctor⟩

/-- A cache of `kmalloc_caches` as it was laid out. -/
def kmallocOpened (index objsize : ℕ) (h : objsize ∈ smallSizes) : OpenedCache where
  cache := createKmallocCache index objsize
  objsize := objsize
  align := 8
  pos := (smallSizes_range objsize h).1
  small := (smallSizes_range objsize h).2
  asked := .inr ⟨3, by decide, rfl⟩
  within := by
    rw [(createKmallocCache_kept h index).2]
    exact fun _ hinit => by cases hinit
  laidOut := by
    rw [(createKmallocCache_kept h index).1, (createKmallocCache_kept h index).2]
    exact createKmallocCache_laidOut h index
  onePage := by
    rw [createKmallocCache, numbered_toKmemCache]
    exact (kmallocCaches_laidOut objsize h).2
  atOnce := by
    rw [(createKmallocCache_kept h index).1]
    rfl

/-- `kmalloc_caches` up to 512 bytes; further caches are of that size, too. -/
def kmallocCaches (i : ℕ) : OpenedCache :=
  if h : (kmallocSize i).getD 512 ∈ smallSizes then
    kmallocOpened i ((kmallocSize i).getD 512) h
  else kmallocOpened i 512 (by decide)

theorem kmallocCaches_index (i : ℕ) : (kmallocCaches i).cache.index = i := by
  rw [kmallocCaches]
  split <;> rfl

theorem kmallocCaches_objsize {i objsize : ℕ} (h : kmallocSize i = some objsize)
    (hle : objsize ≤ largestSize) : (kmallocCaches i).objsize = objsize := by
  have hmem : objsize ∈ smallSizes := by
    obtain ⟨-, rfl | rfl | ⟨h3, rfl⟩⟩ := kmallocSize_eq h
    · decide
    · decide
    · have hlt : i < 10 := by
        by_contra hmore
        have hpow : 2 ^ 10 ≤ 2 ^ i := Nat.pow_le_pow_right (by decide) (by omega)
        rw [largestSize] at hle
        omega
      interval_cases i <;> decide
  rw [kmallocCaches, dif_pos (by rw [h]; exact hmem)]
  exact congrArg (fun o => Option.getD o 512) h

/-- Pages that were never used. -/
def blankStart : World := opened (fun _ => 0) fun _ => ⟨0, 0, 0, 0, false, false, false⟩

/-- Two sizes, each with a page of its own. -/
def twoSizes : List Op := [.kmalloc 100 false (some 1) none, .kmalloc 300 true (some 2) none]

theorem unused_iff (m : Machine) (page : ℕ) : Unused m page ↔
    (0 < page ∧ page * pageSize + pageSize < 2 ^ 64) ∧
      ((m.pages page).pageSlab || (m.pages page).locked) = false := by
  rw [Unused, Bool.or_eq_false_iff]
  exact Iff.rfl

theorem twoSizes_legal :
    Admissible (perform kmallocCaches) (Legal kmallocCaches) blankStart twoSizes := by
  have hsecond : ((perform kmallocCaches blankStart (.kmalloc 100 false (some 1) none)).map
      fun w => (w.machine.pages 2).pageSlab || (w.machine.pages 2).locked) = some false := by
    decide +kernel
  refine ⟨⟨by decide, fun page hpage => ?_⟩, fun w hw => ⟨⟨by decide, fun page hpage => ?_⟩,
    fun _ _ => trivial⟩⟩
  · cases hpage
    exact (unused_iff _ _).mpr ⟨by decide, rfl⟩
  · cases hpage
    rw [hw, Option.map_some, Option.some_inj] at hsecond
    exact (unused_iff _ _).mpr ⟨by decide, hsecond⟩

/-- After each history of all caches together nothing happened that must not, live objects of all
caches do not overlap and hold what their users wrote, and `kfree` would find their cache. -/
theorem history_sound (hindex : ∀ i, (caches i).cache.index = i) (memory : Memory)
    (pages : ℕ → SlabDesc) {ops : List Op}
    (hlegal : Admissible (perform caches) (Legal caches) (opened memory pages) ops) :
    ∃ w, exec (perform caches) (opened memory pages) ops = some w ∧ w.machine.broken = false ∧
      (∃ books, Sound caches w books) ∧ (∀ i, (w.live i).Nodup) ∧
      (∀ i j, ∀ x ∈ w.live i, ∀ y ∈ w.live j, x ≠ y ∨ i ≠ j →
        x + (caches i).objsize ≤ y ∨ y + (caches j).objsize ≤ x) ∧
      ∀ i, ∀ x ∈ w.live i, kfree caches w x = advance caches w (.cacheFree i x) := by
  obtain ⟨w, hexec, books, h⟩ := history_kept hindex memory pages hlegal
  refine ⟨w, hexec, h.sound, ⟨books, h⟩, h.nodup, fun i j x hx y hy hne => ?_,
    fun i x hx => kfree_eq hindex h hx⟩
  refine h.apart hx hy ?_
  rintro rfl
  exact hne.elim (fun h => h rfl) fun hij => hij (live_once h hx hy)

/-- Objects of two caches are live, and `kfree` finds the cache of each. -/
theorem history_sound_twoSizes :
    ∃ w, exec (perform kmallocCaches) blankStart twoSizes = some w ∧ w.live 7 = [4096] ∧
      w.live 9 = [8192] ∧
      kfree kmallocCaches w 8192 = advance kmallocCaches w (.cacheFree 9 8192) := by
  have hrun : (exec (perform kmallocCaches) blankStart twoSizes).map
      (fun w => (w.live 7, w.live 9)) = some ([4096], [8192]) := by decide +kernel
  obtain ⟨w, hw, -, -, -, -, hfree⟩ := history_sound kmallocCaches_index _ _ twoSizes_legal
  have hw' : exec (perform kmallocCaches) blankStart twoSizes = some w := hw
  rw [hw', Option.map_some, Option.some_inj, Prod.mk.injEq] at hrun
  refine ⟨w, hw, hrun.1, hrun.2, hfree 9 8192 ?_⟩
  rw [hrun.2]
  exact List.mem_singleton_self _

/-- After each history `__kmalloc` gives an object of the cache with the smallest objects that hold
the size, apart from all live objects of all caches, and `kfree` undoes it; it gives none only when
the page allocator refuses and no object of that cache is left. -/
theorem history_kmalloc (hindex : ∀ i, (caches i).cache.index = i)
    (hsizes : ∀ i objsize, kmallocSize i = some objsize → objsize ≤ largestSize →
      (caches i).objsize = objsize) (memory : Memory) (pages : ℕ → SlabDesc) {ops : List Op}
    {w : World} (hlegal : Admissible (perform caches) (Legal caches) (opened memory pages) ops)
    (hexec : exec (perform caches) (opened memory pages) ops = some w) {size : ℕ} (hpos : 0 < size)
    (zero : Bool) {first second : Option ℕ}
    (hnext : Legal caches w (.kmalloc size zero first second)) :
    ∃ (i objsize : ℕ), kmallocIndex size = i ∧ kmallocSize i = some objsize ∧ size ≤ objsize ∧
      (∀ j objsize', kmallocSize j = some objsize' → size ≤ objsize' → objsize ≤ objsize') ∧
      ((∃ w' x, perform caches w (.kmalloc size zero first second) = some w' ∧
          w'.live = Function.update w.live i (x :: w.live i) ∧ x ≠ 0 ∧
          (∀ j, ∀ y ∈ w.live j, x + objsize ≤ y ∨ y + (caches j).objsize ≤ x) ∧
          ∃ u, perform caches w' (.kfree x) = some u ∧ u.live = w.live) ∨
        ∃ w', perform caches w (.kmalloc size zero first second) = some w' ∧ w'.live = w.live ∧
          (first <|> second) = none ∧
          ∀ q ∈ (w.machine.caches i).taken, ∀ y ∈ slabObjects (caches i).cache q, y ∈ w.live i) := by
  obtain ⟨v, hexec', books, h⟩ := history_kept hindex memory pages hlegal
  obtain rfl : v = w := Option.some.inj (hexec'.symm.trans hexec)
  have hmax : size ≤ slubMaxSize := hnext.1.trans (by decide)
  obtain ⟨i, objsize, hslab, hkmalloc, hsome, hle, hleast⟩ := getSlab_fits hpos hmax
  have hlarge : objsize ≤ largestSize := hleast 9 512 (by decide) hnext.1
  refine ⟨i, objsize, hkmalloc, hsome, hle, hleast, ?_⟩
  obtain ⟨w', hperform, books', h'⟩ := perform_sound hindex ⟨books, h⟩ hnext
  have hw' : w' = cacheAlloc caches v i zero first second := by
    rw [perform, advance, hslab] at hperform
    split_ifs at hperform
    exact (Option.some.inj hperform).symm
  have hs := (caches i).singlePage
  obtain ⟨c, hgranted⟩ := slabAlloc_granted hs (h.settled i) zero
    fun q hq => unused_apart h (hnext.2 q hq) i
  rw [cacheAlloc] at hw'
  rcases hgranted.answer with ⟨hne, -, -⟩ | ⟨hzero, -, -, hrefused, hnone⟩
  · rw [if_neg hne] at hw'
    obtain ⟨x, hx⟩ : ∃ x, x = (slabAlloc (caches i).cache (v.machine.view i) zero first second).1 :=
      ⟨_, rfl⟩
    have hlive : w'.live = Function.update v.live i (x :: v.live i) := by
      rw [hw', hx]
    have hmem : x ∈ w'.live i := by
      rw [hlive, Function.update_self]
      exact List.mem_cons_self
    have hnodup := h'.nodup i
    rw [hlive, Function.update_self] at hnodup
    have hfresh : ∀ j, x ∉ v.live j := by
      intro j hin
      by_cases hj : j = i
      · exact (List.nodup_cons.mp hnodup).1 (hj ▸ hin)
      · refine hj (live_once h' ?_ hmem)
        rw [hlive, Function.update_of_ne hj]
        exact hin
    refine .inl ⟨w', x, hperform, hlive, hx ▸ hne, fun j y hy => ?_, ?_⟩
    · have hy' : y ∈ w'.live j := by
        rw [hlive]
        by_cases hj : j = i
        · rw [hj, Function.update_self]
          exact List.mem_cons_of_mem _ (hj ▸ hy)
        · rwa [Function.update_of_ne hj]
      have hapart := h'.apart hmem hy' fun heq => hfresh j (heq ▸ hy)
      rwa [hsizes i objsize hsome hlarge] at hapart
    · obtain ⟨u, hu, -⟩ := perform_sound hindex ⟨books', h'⟩
        (show Legal caches w' (.kfree x) from .inr (.inr ⟨i, hmem⟩))
      have heq := hu
      rw [perform, advance, kfree_eq hindex h' hmem] at heq
      split_ifs at heq
      refine ⟨u, hu, ?_⟩
      rw [← Option.some.inj heq]
      dsimp only
      rw [hlive]
      exact forget_update hfresh
  · rw [if_pos hzero] at hw'
    refine .inr ⟨w', hperform, by rw [hw'], hrefused, fun q hq y hy => ?_⟩
    have hall := ((h.settled i).toAccounts.all_live_iff hs hq).mpr ⟨?_, hnone.2 q hq⟩
    · exact (h.live i) ▸ hall y hy
    · rw [Books.cpuOn, hnone.1, ite_self]

/-- A second object of the first size needs no page. -/
theorem history_kmalloc_twoSizes : ∃ w w' u x,
    exec (perform kmallocCaches) blankStart twoSizes = some w ∧
      perform kmallocCaches w (.kmalloc 100 false none none) = some w' ∧
      w'.live 7 = [x, 4096] ∧ perform kmallocCaches w' (.kfree x) = some u ∧ u.live = w.live := by
  have hrun : (exec (perform kmallocCaches) blankStart twoSizes).map
      (fun w => (w.live 7, (w.machine.caches 7).taken)) = some ([4096], [1]) := by decide +kernel
  obtain ⟨w, hw, hpair⟩ := Option.map_eq_some_iff.mp hrun
  rw [Prod.mk.injEq] at hpair
  obtain ⟨i, objsize, hindex, -, -, -, hanswer⟩ := history_kmalloc kmallocCaches_index
    (fun _ _ => kmallocCaches_objsize) _ _ twoSizes_legal hw (by decide : 0 < 100) false
    (show Legal kmallocCaches w (.kmalloc 100 false none none) from
      ⟨by decide, fun page hpage => by cases hpage⟩)
  obtain rfl : i = 7 := Nat.cast_injective (hindex.symm.trans (by decide))
  rcases hanswer with ⟨w', x, hw', hlive, -, -, u, hu, hback⟩ | ⟨-, -, -, -, hall⟩
  · refine ⟨w, w', u, x, hw, hw', ?_, hu, hback⟩
    rw [hlive, Function.update_self, hpair.1]
  · rw [hpair.2, hpair.1] at hall
    exact absurd (hall 1 (List.mem_singleton_self 1) 4224 (by decide +kernel)) (by decide)

end BiscuitOS.KmallocHistory
