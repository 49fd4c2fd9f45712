import BiscuitOS.LinkedCells
import BiscuitOS.SlubCacheModel
import BiscuitOS.SlubFreelist

/-!
# The books of a cache

Every object of a slab is live, on the cpu's list, or on the list of its page.
The books say which, and the state of the cache agrees with them: lists are
linked through free objects, the counts fit, and the partial list has the
slabs from which an object can be taken, but for the frozen one.
-/

namespace BiscuitOS.SlubCacheBooks

open MachineWord ByteMemory LinkedCells SlubLayout SlubSizes SlubFreelist SlubCacheModel

/-- The distance of the objects of a slab. -/
def slotSize (s : CacheDesc) : ℕ := toUnsigned 64 s.size

/-- Where the free pointer lies in an object. -/
def slotOffset (s : CacheDesc) : ℕ := toUnsigned 64 s.offset

/-- The number of objects of a slab. -/
def perPage (s : CacheDesc) : ℕ := pageSize / slotSize s

/-- The objects of the slab in a page. -/
def slabObjects (s : CacheDesc) (page : ℕ) : List ℕ :=
  (List.range (perPage s)).map fun i => page * pageSize + i * slotSize s

/-- The cache has slabs of one page and was laid out by `calculate_sizes`. -/
structure SinglePage (s : CacheDesc) : Prop where
  /-- The layout of an object, and a constructor that keeps to it. -/
  layout : ∃ asked align k, Layout asked align s.toKmemCache (slotSize s) (slotOffset s) k ∧
    Initializes s.ctor asked ∧ toUnsigned 64 s.objsize = asked
  /-- A word at least. -/
  size : 8 ≤ slotSize s
  /-- `oo` grants a page. -/
  oo : Packed (slotSize s) s.oo 0
  /-- `min` grants a page. -/
  min : Packed (slotSize s) s.min 0
  /-- `max` has the number of objects of a page. -/
  max : ooObjects s.max = perPage s
  /-- Pages are given back at once. -/
  atOnce : s.flags &&& slabDestroyByRcu = 0

variable {s : CacheDesc}

theorem SinglePage.pointer (hs : SinglePage s) : slotOffset s + 8 ≤ slotSize s := by
  obtain ⟨_, _, _, hl, _⟩ := hs.layout
  exact hl.pointer

theorem SinglePage.objsize (hs : SinglePage s) : toUnsigned 64 s.objsize ≤ slotSize s := by
  obtain ⟨_, _, _, hl, _, hasked⟩ := hs.layout
  exact hasked ▸ hl.objsize_le

/-- There is an object in a slab. -/
theorem SinglePage.pos (hs : SinglePage s) : 0 < perPage s := hs.oo.objects_pos

/-- The objects fit the page. -/
theorem slots_fit (s : CacheDesc) : perPage s * slotSize s ≤ pageSize :=
  Nat.div_mul_le_self _ _

/-- There are few objects in a slab. -/
theorem SinglePage.few (hs : SinglePage s) : perPage s ≤ 512 := by
  have hsize := hs.size
  have hfits := slots_fit s
  have hmul : perPage s * 8 ≤ perPage s * slotSize s := Nat.mul_le_mul_left _ hsize
  rw [pageSize] at hfits
  omega

/-- `calculate_sizes` leaves the flags and the object size alone, and `max` does not shrink. -/
theorem calculateSizes_kept {before after : KmemCache} (h : calculateSizes before = (after, true)) :
    after.flags = before.flags ∧ after.objsize = before.objsize ∧
      after.max = if ooObjects before.max < ooObjects after.oo then after.oo else before.max := by
  rw [calculateSizes] at h
  generalize relocates before = moved at h
  generalize hused : (if moved then wrap 64 (alignUp 64 (toUnsigned 64 before.objsize) sizeofPointer +
    sizeofPointer) else alignUp 64 (toUnsigned 64 before.objsize) sizeofPointer) = used at h
  dsimp only at h
  generalize alignUp 64 used (calculateAlignment before.flags (toUnsigned 64 before.align)
    (toUnsigned 64 before.objsize)) = size at h
  generalize calculateOrder (toSigned 32 size) = order at h
  by_cases hneg : order < 0
  · rw [if_pos hneg] at h
    cases (Prod.mk.inj h).2
  · rw [if_neg hneg] at h
    rw [← (Prod.mk.inj h).1]
    exact ⟨rfl, rfl, rfl⟩

/-- `calculate_sizes` lays a cache out. -/
theorem SinglePage.opened {objsize align flags : ℕ} {ctor : Option (ℕ → Memory → Memory)}
    (hpos : 0 < objsize) (hobj : objsize < 2 ^ 31) (halign : Asked align)
    (hctor : Initializes ctor objsize)
    (h : calculateSizes (openedCache objsize align flags ctor) = (s.toKmemCache, true))
    (hone : ooOrder s.oo = 0) (hrcu : flags &&& slabDestroyByRcu = 0) : SinglePage s := by
  obtain ⟨size, offset, k, order, hl, hoo, hmin, hsame⟩ := calculateSizes_layout hpos hobj halign h
  have hle := hl.objsize_le
  have hin := hl.pointer
  have hlt := hl.size_lt
  have hsize : slotSize s = size := by rw [slotSize, hl.size_eq, toUnsigned_nat (by omega)]
  have hoffset : slotOffset s = offset := by rw [slotOffset, hl.offset_eq, toUnsigned_nat (by omega)]
  have horder : order = 0 := by rw [← hone, hoo.order_eq]
  subst horder
  have hholds : size ≤ pageSize <<< 0 := by
    by_contra hbig
    have := hoo.objects_pos
    rw [Nat.div_eq_of_lt (by omega)] at this
    omega
  have hleast : getOrder size = 0 := Nat.le_zero.mp (getOrder_le (by omega) (by omega) hholds)
  rw [hleast] at hmin
  obtain ⟨hflags, hasked, hmax⟩ := calculateSizes_kept h
  have hcount : 0 < ooObjects s.oo := by
    rw [hoo.objects_eq]
    exact hoo.objects_pos
  have hnone : ooObjects (openedCache objsize align flags ctor).max = 0 := Nat.zero_and _
  rw [hnone, if_pos hcount] at hmax
  refine ⟨⟨objsize, align, k, ?_, ?_, ?_⟩, by omega, ?_, ?_, ?_, ?_⟩
  · rw [hsize, hoffset]
    exact hl
  · exact hsame ▸ hctor
  · rw [hasked]
    exact toUnsigned_nat (by omega)
  · rw [hsize]
    exact hoo
  · rw [hsize]
    exact hmin
  · rw [hmax, hoo.objects_eq, perPage, hsize, Nat.shiftLeft_zero]
  · rw [hflags]
    exact hrcu

theorem mem_slabObjects {page x : ℕ} :
    x ∈ slabObjects s page ↔ ∃ i, i < perPage s ∧ x = page * pageSize + i * slotSize s := by
  rw [slabObjects, List.mem_map]
  constructor
  · rintro ⟨i, hi, rfl⟩
    exact ⟨i, List.mem_range.mp hi, rfl⟩
  · rintro ⟨i, hi, rfl⟩
    exact ⟨i, List.mem_range.mpr hi, rfl⟩

@[simp] theorem slabObjects_length (s : CacheDesc) (page : ℕ) :
    (slabObjects s page).length = perPage s := by
  rw [slabObjects, List.length_map, List.length_range]

/-- An object lies in its page. -/
theorem slabObjects_inside {page x : ℕ} (hx : x ∈ slabObjects s page) :
    page * pageSize ≤ x ∧ x + slotSize s ≤ page * pageSize + pageSize := by
  obtain ⟨i, hi, rfl⟩ := mem_slabObjects.mp hx
  have hfits := slots_fit s
  have hrow : (i + 1) * slotSize s ≤ perPage s * slotSize s := Nat.mul_le_mul_right _ hi
  rw [Nat.succ_mul] at hrow
  omega

/-- An object tells its page. -/
theorem slabObjects_page (hs : SinglePage s) {page x : ℕ} (hx : x ∈ slabObjects s page) :
    x / pageSize = page := by
  obtain ⟨hlow, hhigh⟩ := slabObjects_inside hx
  have hsize := hs.size
  refine Nat.div_eq_of_lt_le hlow ?_
  rw [Nat.succ_mul]
  omega

/-- The objects of a page are different. -/
theorem slabObjects_nodup (hs : SinglePage s) (page : ℕ) : (slabObjects s page).Nodup := by
  have hsize := hs.size
  refine List.Nodup.map ?_ List.nodup_range
  intro i j h
  have heq : i * slotSize s = j * slotSize s := Nat.add_left_cancel h
  exact Nat.eq_of_mul_eq_mul_right (by omega) heq

/-- Objects do not overlap. -/
theorem slabObjects_apart {page other x y : ℕ} (hx : x ∈ slabObjects s page)
    (hy : y ∈ slabObjects s other) (hne : x ≠ y) : Apart (slotSize s) x y := by
  by_cases hpage : page = other
  · subst hpage
    obtain ⟨i, -, rfl⟩ := mem_slabObjects.mp hx
    obtain ⟨j, -, rfl⟩ := mem_slabObjects.mp hy
    rcases Nat.lt_trichotomy i j with hlt | rfl | hlt
    · have hrow : (i + 1) * slotSize s ≤ j * slotSize s := Nat.mul_le_mul_right _ hlt
      rw [Nat.succ_mul] at hrow
      exact .inl (by omega)
    · exact absurd rfl hne
    · have hrow : (j + 1) * slotSize s ≤ i * slotSize s := Nat.mul_le_mul_right _ hlt
      rw [Nat.succ_mul] at hrow
      exact .inr (by omega)
  · have hx' := slabObjects_inside hx
    have hy' := slabObjects_inside hy
    rcases Nat.lt_or_gt_of_ne hpage with hlt | hlt
    · have hrow : (page + 1) * pageSize ≤ other * pageSize := Nat.mul_le_mul_right _ hlt
      rw [Nat.succ_mul] at hrow
      exact .inl (by omega)
    · have hrow : (other + 1) * pageSize ≤ page * pageSize := Nat.mul_le_mul_right _ hlt
      rw [Nat.succ_mul] at hrow
      exact .inr (by omega)

/-- A page that the page allocator can grant: it is not the first one, and it has an address. -/
def Addressable (page : ℕ) : Prop := 0 < page ∧ page * pageSize + pageSize < 2 ^ 64

/-- Setting an object up and its pointer changes the object only. -/
theorem setObject_outside (hs : SinglePage s) (m : Memory) {object b : ℕ} (v : ℕ)
    (hb : b < object ∨ object + slotSize s ≤ b) :
    setFreepointer s.toKmemCache (setupObject s.toKmemCache m object) object v b = m b := by
  obtain ⟨asked, align, k, hl, hctor, -⟩ := hs.layout
  have hin := hs.pointer
  have hle := hl.objsize_le
  have hoffset : toUnsigned 64 s.offset = slotOffset s := rfl
  rw [setFreepointer, hoffset, store, if_neg (by omega), setupObject]
  cases hsome : s.ctor with
  | none => rfl
  | some init => exact hctor init hsome object m b (by omega)

/-- The loop over the objects of a page changes the page only, and ends at an object. -/
theorem linkObjects_outside (hs : SinglePage s) {start stop : ℕ}
    (hstop : stop = start + perPage s * slotSize s) (fuel : ℕ) :
    ∀ (m : Memory) (i j : ℕ), i < perPage s →
      (∃ k, k < perPage s ∧ (linkObjects s.toKmemCache stop fuel m (start + i * slotSize s)
        (start + j * slotSize s)).2 = start + k * slotSize s) ∧
      ∀ b, b < start ∨ stop ≤ b → (linkObjects s.toKmemCache stop fuel m (start + i * slotSize s)
        (start + j * slotSize s)).1 b = m b := by
  induction fuel with
  | zero => exact fun m i j hi => ⟨⟨i, hi, rfl⟩, fun b _ => rfl⟩
  | succ fuel ih =>
    intro m i j hi
    rw [linkObjects]
    by_cases hmore : start + j * slotSize s < stop
    · have hnext : start + j * slotSize s + toUnsigned 64 s.size = start + (j + 1) * slotSize s := by
        rw [Nat.succ_mul, slotSize]
        omega
      have hj : j < perPage s := by
        by_contra hge
        have hrow : perPage s * slotSize s ≤ j * slotSize s := Nat.mul_le_mul_right _ (by omega)
        omega
      have hrow : (i + 1) * slotSize s ≤ perPage s * slotSize s := Nat.mul_le_mul_right _ hi
      rw [Nat.succ_mul] at hrow
      rw [if_pos hmore, hnext]
      obtain ⟨hend, houtside⟩ := ih (setFreepointer s.toKmemCache
        (setupObject s.toKmemCache m (start + i * slotSize s)) (start + i * slotSize s)
        (start + j * slotSize s)) j (j + 1) hj
      refine ⟨hend, fun b hb => ?_⟩
      rw [houtside b hb]
      exact setObject_outside hs m _ (by omega)
    · rw [if_neg hmore]
      exact ⟨⟨i, hi, rfl⟩, fun b _ => rfl⟩

/-- Setting up all objects of a page changes the page only. -/
theorem setLinked_outside (hs : SinglePage s) {m : Memory} {page fuel b : ℕ}
    (hb : b < page * pageSize ∨ page * pageSize + pageSize ≤ b) :
    let r := linkObjects s.toKmemCache (page * pageSize + perPage s * slotSize s) fuel m
      (page * pageSize) (page * pageSize)
    setFreepointer s.toKmemCache (setupObject s.toKmemCache r.1 r.2) r.2 0 b = m b := by
  have hfits := slots_fit s
  obtain ⟨⟨k, hk, hlast⟩, houtside⟩ :=
    @linkObjects_outside s hs (page * pageSize) _ rfl fuel m 0 0 hs.pos
  have hrow : (k + 1) * slotSize s ≤ perPage s * slotSize s := Nat.mul_le_mul_right _ hk
  rw [Nat.succ_mul] at hrow
  rw [Nat.zero_mul, Nat.add_zero] at hlast houtside
  dsimp only
  rw [hlast, setObject_outside hs _ _ (by omega)]
  exact houtside b (by omega)

/-- The page of a new slab is the one that the page allocator grants. -/
theorem newSlab_start {m m' : Memory} {first second : Option ℕ} {d : SlabPage}
    (h : newSlab s.toKmemCache m (blockOf first) (blockOf second) = some (d, m')) :
    ∃ page, (first <|> second) = some page ∧ d.start = page * pageSize ∧ d.order = 0 := by
  rw [newSlab, Option.map_eq_some_iff] at h
  obtain ⟨block, hblock, hpage⟩ := h
  rw [Prod.mk.injEq] at hpage
  rw [← hpage.1]
  cases first with
  | some page =>
    rw [blockOf, Option.map_some, allocateSlab, Option.some.injEq] at hblock
    rw [← hblock]
    exact ⟨page, rfl, rfl, rfl⟩
  | none =>
    rw [blockOf, Option.map_none, allocateSlab, Option.map_eq_some_iff] at hblock
    obtain ⟨r, hr, hblock⟩ := hblock
    rw [blockOf, Option.map_eq_some_iff] at hr
    obtain ⟨page, hpage', hr⟩ := hr
    rw [← hblock, ← hr]
    exact ⟨page, by rw [hpage']; rfl, rfl, rfl⟩

/-- A new slab has all its objects on the list of its page, and nothing else is changed. -/
theorem newSlab_objects (hs : SinglePage s) {m m' : Memory} {first second : Option ℕ} {d : SlabPage}
    (h : newSlab s.toKmemCache m (blockOf first) (blockOf second) = some (d, m'))
    (hgranted : ∀ page, (first <|> second) = some page → Addressable page) :
    ∃ page, (first <|> second) = some page ∧ d.start = page * pageSize ∧
      d.objects = perPage s ∧ d.inuse = 0 ∧
      Linked m' (slotOffset s) d.freelist (slabObjects s page) ∧
      ∀ b, b < page * pageSize ∨ page * pageSize + pageSize ≤ b → m' b = m b := by
  obtain ⟨page, hpage, hstart, horder⟩ := newSlab_start h
  obtain ⟨hpos, hend⟩ := hgranted page hpage
  obtain ⟨asked, align, k, hl, hctor, -⟩ := hs.layout
  have hsize := hs.size
  have hcount := hs.few
  have hfits := slots_fit s
  have hgrant : Packed (slotSize s) (granted s.toKmemCache (blockOf first)) 0 := by
    rw [granted]
    split
    · exact hs.oo
    · exact hs.min
  have hne : d.start ≠ 0 := by
    rw [hstart, pageSize]
    omega
  obtain ⟨hobjects, hfreelist, hinuse, hchain⟩ := newSlab_spec hl hctor (by omega) h rfl hgrant hne
    (by rw [Nat.shiftLeft_zero, hstart]; exact hend)
  have hall : d.objects = perPage s := by
    rw [hobjects, hgrant.objects_eq, perPage, Nat.shiftLeft_zero]
  refine ⟨page, hpage, hstart, hall, hinuse, ?_, fun b hb => ?_⟩
  · refine @linked_of_chain m' (slotOffset s) d.freelist (slabObjects s page) (perPage s + 1) ?_ ?_ ?_
    · intro x hx
      have hin := slabObjects_inside hx
      rw [pageSize] at hin hend
      omega
    · rw [slabObjects_length]
      omega
    · rw [hchain (perPage s + 1) (by omega), hall, hstart, slabObjects]
  · rw [newSlab, Option.map_eq_some_iff] at h
    obtain ⟨block, -, hblock⟩ := h
    dsimp only at hblock
    obtain ⟨hd, hm⟩ := Prod.mk.inj hblock
    have hblockStart : block.start = page * pageSize := by rw [← hstart, ← hd]
    have hblockObjects : block.objects = perPage s := by rw [← hall, ← hd]
    have hblockOrder : block.order = 0 := by rw [← horder, ← hd]
    have hstop : toUnsigned 64 (toSigned 32 (perPage s * s.size)) = perPage s * slotSize s := by
      rw [hl.size_eq, wanted_eq]
      rw [pageSize] at hfits
      omega
    rw [hblockStart, hblockObjects, hstop, hblockOrder, Nat.shiftLeft_zero] at hm
    rw [← hm]
    refine (setLinked_outside hs hb).trans ?_
    split
    · exact if_neg (by omega)
    · rfl

/-- Where the objects of a cache are, and which slab is frozen and which is locked. -/
structure Books where
  /-- The objects that were handed out and not taken back. -/
  live : List ℕ
  /-- The objects on the list of the cpu. -/
  cpu : List ℕ
  /-- The objects on the list of a page. -/
  free : ℕ → List ℕ
  /-- The frozen slab. -/
  frozen : Option ℕ
  /-- The locked slab. -/
  locked : Option ℕ

/-- The live objects of a page. -/
def Books.liveOn (b : Books) (page : ℕ) : List ℕ := b.live.filter fun x => x / pageSize = page

/-- The objects of a page on the list of the cpu. -/
def Books.cpuOn (b : Books) (page : ℕ) : List ℕ := if b.frozen = some page then b.cpu else []

/-- With no slab frozen, a page is not. -/
theorem Books.frozen_ne {b : Books} (hidle : b.frozen = none) (page : ℕ) :
    b.frozen ≠ some page := by
  rw [hidle]
  exact (Option.some_ne_none page).symm

/-- With no slab frozen, no object of a page is on the list of the cpu. -/
theorem Books.cpuOn_idle {b : Books} (hidle : b.frozen = none) (page : ℕ) : b.cpuOn page = [] := by
  rw [Books.cpuOn, if_neg (Books.frozen_ne hidle page)]

/-- The state of a page agrees with the books. -/
structure PageAccounts (s : CacheDesc) (t : SlubState) (b : Books) (page : ℕ) : Prop where
  /-- The page has an address. -/
  addressable : Addressable page
  /-- `slab`. -/
  slab : (t.pages page).slab = s.index
  /-- `objects`. -/
  objects : (t.pages page).objects = perPage s
  /-- `inuse` counts what is not on the list of the page. -/
  inuse : (t.pages page).inuse + (b.free page).length = perPage s
  /-- `freelist`. -/
  stack : Linked t.memory (slotOffset s) (t.pages page).freelist (b.free page)
  /-- Each object is in one place. -/
  split : (b.liveOn page ++ b.cpuOn page ++ b.free page).Perm (slabObjects s page)
  /-- `PG_slub_frozen`. -/
  frozen : (t.pages page).frozen = decide (b.frozen = some page)
  /-- `PG_locked`. -/
  locked : (t.pages page).locked = decide (b.locked = some page)
  /-- `PG_slab`. -/
  pageSlab : (t.pages page).pageSlab = true

/-- The slabs of the partial list in which no object is used. -/
def emptySlabs (t : SlubState) : List ℕ :=
  t.partialList.filter fun page => (t.pages page).inuse = 0

/-- The state of a cache agrees with the books. -/
structure Accounts (s : CacheDesc) (t : SlubState) (b : Books) : Prop where
  /-- Nothing happened that must not. -/
  sound : t.broken = false
  /-- Each page was taken once. -/
  nodup : t.taken.Nodup
  /-- Each page agrees. -/
  page : ∀ page ∈ t.taken, PageAccounts s t b page
  /-- Live objects are in pages of the cache. -/
  live : ∀ x ∈ b.live, x / pageSize ∈ t.taken
  /-- `freelist` of the cpu. -/
  cpuStack : Linked t.memory (slotOffset s) t.cpuFreelist b.cpu
  /-- The frozen slab is a page of the cache. -/
  frozen : ∀ page, b.frozen = some page → page ∈ t.taken
  /-- The cpu has objects of the frozen slab only. -/
  idle : b.frozen = none → b.cpu = []
  /-- Each slab is on the partial list once. -/
  listed : t.partialList.Nodup
  /-- The partial list has the slabs that are not frozen and have a free object. -/
  mem_listed : ∀ page, page ∈ t.partialList ↔
    page ∈ t.taken ∧ b.frozen ≠ some page ∧ b.free page ≠ []
  /-- `nr_partial`. -/
  counted : t.nrPartial = t.partialList.length
  /-- `node` of the cpu. -/
  node : t.cpuNode = 0
  /-- Few empty slabs are kept. -/
  empties : (emptySlabs t).length ≤ s.minPartial

/-- Between two calls no slab is locked, and the frozen slab is that of the cpu. -/
structure Settled (s : CacheDesc) (t : SlubState) (b : Books) : Prop extends Accounts s t b where
  /-- No slab is locked. -/
  unlocked : b.locked = none
  /-- The frozen slab is that of the cpu. -/
  current : t.cpuPage = b.frozen

/-- From one state to the other only the pages in `mine` change, and there no object that is
live. -/
structure Quiet (s : CacheDesc) (live mine : List ℕ) (t u : SlubState) : Prop where
  /-- Other descriptors stay. -/
  pages : ∀ page, page ∉ mine → u.pages page = t.pages page
  /-- Other bytes stay, and those of live objects. -/
  memory : ∀ a, (a / pageSize ∉ mine ∨ ∃ x ∈ live, x ≤ a ∧ a < x + slotSize s) →
    u.memory a = t.memory a

theorem Quiet.refl {live mine : List ℕ} {t : SlubState} : Quiet s live mine t t :=
  ⟨fun _ _ => rfl, fun _ _ => rfl⟩

theorem Quiet.trans {live mine : List ℕ} {t u v : SlubState} (h : Quiet s live mine t u)
    (h' : Quiet s live mine u v) : Quiet s live mine t v :=
  ⟨fun page hpage => (h'.pages page hpage).trans (h.pages page hpage),
    fun a ha => (h'.memory a ha).trans (h.memory a ha)⟩

theorem Quiet.mono {live live' mine mine' : List ℕ} {t u : SlubState} (h : Quiet s live mine t u)
    (hlive : live' ⊆ live) (hmine : mine ⊆ mine') : Quiet s live' mine' t u :=
  ⟨fun page hpage => h.pages page fun hin => hpage (hmine hin),
    fun a ha => h.memory a (ha.imp (fun hout hin => hout (hmine hin))
      fun ⟨x, hx, hin⟩ => ⟨x, hlive hx, hin⟩)⟩

variable {t u : SlubState} {b c : Books} {page x y : ℕ}

/-- Everything the books list for a page is an object of the page. -/
theorem PageAccounts.mem_slabObjects (h : PageAccounts s t b page) :
    x ∈ slabObjects s page ↔ x ∈ b.liveOn page ∨ x ∈ b.cpuOn page ∨ x ∈ b.free page := by
  rw [← h.split.mem_iff, List.mem_append, List.mem_append, or_assoc]

/-- No object is in two places. -/
theorem PageAccounts.nodup (hs : SinglePage s) (h : PageAccounts s t b page) :
    (b.liveOn page ++ b.cpuOn page ++ b.free page).Nodup :=
  h.split.nodup_iff.mpr (slabObjects_nodup hs page)

theorem mem_liveOn : x ∈ b.liveOn page ↔ x ∈ b.live ∧ x / pageSize = page := by
  rw [Books.liveOn, List.mem_filter, decide_eq_true_iff]

/-- An object that is handed out is live on its page, and nothing changes on others. -/
theorem liveOn_cons (b : Books) (x page : ℕ) : ({ b with live := x :: b.live } : Books).liveOn page =
    if x / pageSize = page then x :: b.liveOn page else b.liveOn page := by
  rw [Books.liveOn, Books.liveOn, List.filter_cons]
  simp only [decide_eq_true_iff]

/-- An object that is taken back was live on its page, and nothing changes on others. -/
theorem liveOn_erase (hx : x ∈ b.live) (page : ℕ) :
    (if x / pageSize = page then x :: ({ b with live := b.live.erase x } : Books).liveOn page
      else ({ b with live := b.live.erase x } : Books).liveOn page).Perm (b.liveOn page) := by
  have hperm := (List.perm_cons_erase hx).filter fun y => decide (y / pageSize = page)
  rw [List.filter_cons] at hperm
  simp only [decide_eq_true_iff] at hperm
  exact hperm.symm

/-- A live object is an object of its page. -/
theorem Accounts.live_object (h : Accounts s t b) (hx : x ∈ b.live) :
    x ∈ slabObjects s (x / pageSize) :=
  (h.page _ (h.live x hx)).mem_slabObjects.mpr (.inl (mem_liveOn.mpr ⟨hx, rfl⟩))

/-- An object on the list of the cpu is an object of the frozen slab. -/
theorem Accounts.cpu_object (h : Accounts s t b) (hx : x ∈ b.cpu) :
    ∃ page, b.frozen = some page ∧ page ∈ t.taken ∧ x ∈ b.cpuOn page ∧ x ∈ slabObjects s page := by
  cases hfrozen : b.frozen with
  | none =>
    rw [h.idle hfrozen] at hx
    cases hx
  | some page =>
    have hon : x ∈ b.cpuOn page := by rwa [Books.cpuOn, if_pos hfrozen]
    have hin := h.frozen page hfrozen
    exact ⟨page, rfl, hin, hon, (h.page page hin).mem_slabObjects.mpr (.inr (.inl hon))⟩

/-- An object on the list of a page is an object of the page. -/
theorem Accounts.free_object (h : Accounts s t b) (hpage : page ∈ t.taken) (hx : x ∈ b.free page) :
    x ∈ slabObjects s page :=
  (h.page page hpage).mem_slabObjects.mpr (.inr (.inr hx))

/-- A live object is on no list of a page. -/
theorem Accounts.live_ne_free (hs : SinglePage s) (h : Accounts s t b) (hx : x ∈ b.live)
    (hpage : page ∈ t.taken) (hy : y ∈ b.free page) : x ≠ y := by
  rintro rfl
  have hsame := slabObjects_page hs (h.free_object hpage hy)
  have hsplit := (h.page page hpage).nodup hs
  rw [List.append_assoc] at hsplit
  exact (List.disjoint_of_nodup_append hsplit) (mem_liveOn.mpr ⟨hx, hsame⟩)
    (List.mem_append_right _ hy)

/-- A live object is not on the list of the cpu. -/
theorem Accounts.live_ne_cpu (hs : SinglePage s) (h : Accounts s t b) (hx : x ∈ b.live)
    (hy : y ∈ b.cpu) : x ≠ y := by
  rintro rfl
  obtain ⟨page, -, hin, hon, hobject⟩ := h.cpu_object hy
  have hsame := slabObjects_page hs hobject
  have hsplit := (h.page page hin).nodup hs
  rw [List.append_assoc] at hsplit
  exact (List.disjoint_of_nodup_append hsplit) (mem_liveOn.mpr ⟨hx, hsame⟩)
    (List.mem_append_left _ hon)

/-- An object on the list of the cpu is on no list of a page. -/
theorem Accounts.cpu_ne_free (hs : SinglePage s) (h : Accounts s t b) (hx : x ∈ b.cpu)
    (hpage : page ∈ t.taken) (hy : y ∈ b.free page) : x ≠ y := by
  rintro rfl
  obtain ⟨frozen, -, hin, hon, hobject⟩ := h.cpu_object hx
  have hsame := slabObjects_page hs hobject
  rw [slabObjects_page hs (h.free_object hpage hy)] at hsame
  subst hsame
  exact List.disjoint_of_nodup_append ((h.page page hin).nodup hs)
    (List.mem_append_right _ hon) hy

/-- Live objects are different. -/
theorem Accounts.live_nodup (hs : SinglePage s) (h : Accounts s t b) : b.live.Nodup := by
  rw [List.nodup_iff_count_le_one]
  intro x
  by_cases hx : x ∈ b.live
  · have hsplit := (h.page _ (h.live x hx)).nodup hs
    rw [List.append_assoc] at hsplit
    have hcount := List.nodup_iff_count_le_one.mp (List.Nodup.of_append_left hsplit) x
    have hkeep := @List.count_filter ℕ _ _ (fun y => decide (y / pageSize = x / pageSize)) x b.live
      (decide_eq_true rfl)
    rwa [Books.liveOn, hkeep] at hcount
  · rw [List.count_eq_zero_of_not_mem hx]
    exact Nat.zero_le 1

/-- All objects of a page are live when none of them is on a list. -/
theorem Accounts.all_live_iff (hs : SinglePage s) (h : Accounts s t b) (hpage : page ∈ t.taken) :
    (∀ y ∈ slabObjects s page, y ∈ b.live) ↔ b.cpuOn page = [] ∧ b.free page = [] := by
  have hp := h.page page hpage
  constructor
  · intro hall
    constructor
    · refine List.eq_nil_iff_forall_not_mem.mpr fun y hy => ?_
      have hcpu : y ∈ b.cpu := by
        rw [Books.cpuOn] at hy
        split at hy
        · exact hy
        · cases hy
      exact h.live_ne_cpu hs (hall y (hp.mem_slabObjects.mpr (.inr (.inl hy)))) hcpu rfl
    · refine List.eq_nil_iff_forall_not_mem.mpr fun y hy => ?_
      exact h.live_ne_free hs (hall y (h.free_object hpage hy)) hpage hy rfl
  · rintro ⟨hcpu, hfree⟩ y hy
    rcases hp.mem_slabObjects.mp hy with hon | hon | hon
    · exact (mem_liveOn.mp hon).1
    · rw [hcpu] at hon
      cases hon
    · rw [hfree] at hon
      cases hon

/-- An object has an address. -/
theorem Addressable.object (h : Addressable page) (hx : x ∈ slabObjects s page) :
    x ≠ 0 ∧ x < 2 ^ 64 := by
  obtain ⟨hpos, hend⟩ := h
  have hin := slabObjects_inside hx
  rw [pageSize] at hin hend
  omega

/-- A store of a free pointer into an object leaves the others alone. -/
theorem same_setFreepointer (hs : SinglePage s) (m : Memory) (v : ℕ)
    (h : Apart (slotSize s) x y) :
    Same m (setFreepointer s.toKmemCache m x v) y (slotSize s) := by
  intro a ha ha'
  have hin := hs.pointer
  have hoffset : toUnsigned 64 s.offset = slotOffset s := rfl
  rw [Apart] at h
  rw [setFreepointer, store, hoffset, if_neg (by omega)]

/-- A store of a free pointer into an object that is not live. -/
theorem quiet_setFreepointer (hs : SinglePage s) {live mine : List ℕ} (v : ℕ)
    (hpages : ∀ q, q ∉ mine → u.pages q = t.pages q)
    (hmemory : u.memory = setFreepointer s.toKmemCache t.memory x v)
    (hx : x ∈ slabObjects s page) (hpage : page ∈ mine)
    (hlive : ∀ y ∈ live, Apart (slotSize s) x y) : Quiet s live mine t u := by
  refine ⟨hpages, fun a ha => ?_⟩
  have hin := hs.pointer
  have hinside := slabObjects_inside hx
  have hoffset : toUnsigned 64 s.offset = slotOffset s := rfl
  rw [hmemory, setFreepointer, store, hoffset, if_neg]
  rintro ⟨hlow, hhigh⟩
  rcases ha with hout | ⟨y, hy, hya, hya'⟩
  · have hquot : a / pageSize = page := by
      refine Nat.div_eq_of_lt_le (by omega) ?_
      rw [Nat.succ_mul]
      omega
    exact hout (hquot ▸ hpage)
  · have hapart := hlive y hy
    rw [Apart] at hapart
    omega

/-- A page agrees with the books as long as nothing of it changes. -/
theorem PageAccounts.congr (h : PageAccounts s t b page) (hs : SinglePage s)
    (hpages : u.pages page = t.pages page)
    (hmemory : ∀ x ∈ b.free page, Same t.memory u.memory x (slotSize s))
    (hlive : (c.liveOn page).Perm (b.liveOn page)) (hcpu : c.cpuOn page = b.cpuOn page)
    (hfree : c.free page = b.free page) (hfrozen : c.frozen = some page ↔ b.frozen = some page)
    (hlocked : c.locked = some page ↔ b.locked = some page) : PageAccounts s u c page where
  addressable := h.addressable
  slab := by rw [hpages, h.slab]
  objects := by rw [hpages, h.objects]
  inuse := by rw [hpages, hfree, h.inuse]
  stack := by
    rw [hpages, hfree]
    exact h.stack.same hs.pointer hmemory
  split := by
    rw [hcpu, hfree]
    exact ((hlive.append_right _).append_right _).trans h.split
  frozen := by rw [hpages, h.frozen, decide_eq_decide.mpr hfrozen]
  locked := by rw [hpages, h.locked, decide_eq_decide.mpr hlocked]
  pageSlab := by rw [hpages, h.pageSlab]

end BiscuitOS.SlubCacheBooks
