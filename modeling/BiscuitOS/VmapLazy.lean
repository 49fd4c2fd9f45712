import BiscuitOS.PcpuVmModel
import BiscuitOS.VmapHistory

/-!
# Areas freed lazily and areas imported at boot

`vmalloc_init` makes an area of each entry of `vmlist`, with the flags of the
entry and without its descriptor. The flags of an entry and of an area share
bits, so an entry of `ioremap` looks like an area freed lazily. Without such
entries the number of lazily freed pages is right in every run, and a purge
takes out what was freed since the last one.
-/

namespace BiscuitOS.VmapLazy

open MachineWord TransitionRun ColorTree RbtreeModel RbtreeHeap RangeOrder VmapModel VmapTree
open VmapSearch VmapHistory PcpuVmModel

/-- `VM_IOREMAP`, the bit of `VM_LAZY_FREE`. -/
def vmIoremap : ℕ := 1

/-- An entry of `vmlist`, its descriptor and the area that `kzalloc` answers for it. -/
structure Entry where
  /-- The address of the descriptor. -/
  vm : ℕ
  /-- The descriptor. -/
  tmp : VmStruct
  /-- The answer of `kzalloc`. -/
  va : ℕ

/-- The area of an entry: `private` stays zero. -/
def importedArea (tmp : VmStruct) : VmapArea where
  vaStart := tmp.addr
  vaEnd := wrap 64 (tmp.addr + tmp.size)
  lazyFree := decide (tmp.flags &&& vmIoremap ≠ 0)
  lazyFreeing := decide (tmp.flags &&& vmAlloc ≠ 0)
  vmArea := true
  private_ := 0

/-- The loop of `vmalloc_init` over `vmlist`. -/
def importEntries (s : VmapState) : List Entry → Option VmapState
  | [] => some s
  | e :: rest =>
    (insertVmapArea (setArea s e.va (importedArea e.tmp)) e.va).bind fun s => importEntries s rest

/-- `vmalloc_init`. -/
def vmallocInit (s : VmapState) (vmlist : List Entry) : Option VmapState :=
  (importEntries s vmlist).map fun s => { s with pcpuHole := vmallocEnd }

/-- `find_vm_area`: zero for `NULL`. -/
def findVmArea (s : VmapState) (addr : ℕ) : Option ℕ :=
  (findVmapArea s addr).map fun va =>
    if va ≠ 0 ∧ (s.areas va).vmArea then (s.areas va).private_ else 0

/-- The entries of a `vmlist`: disjoint, at kernel addresses, each with its guard page, and areas of
their own. -/
structure Entries (vmlist : List Entry) : Prop where
  /-- They are disjoint. -/
  apart : vmlist.Pairwise fun d e =>
    d.tmp.addr + d.tmp.size ≤ e.tmp.addr ∨ e.tmp.addr + e.tmp.size ≤ d.tmp.addr
  /-- They are not empty and end at a kernel address. -/
  bound : ∀ e ∈ vmlist, pageSize ≤ e.tmp.size ∧ e.tmp.addr + e.tmp.size ≤ 2 ^ 32
  /-- Each has a descriptor. -/
  vm : ∀ e ∈ vmlist, e.vm ≠ 0
  /-- `kzalloc` answers addresses of nodes. -/
  va : ∀ e ∈ vmlist, e.va ≠ 0 ∧ e.va % 4 = 0
  /-- They are different. -/
  nodup : (vmlist.map Entry.va).Nodup

/-- The pages of the areas freed lazily. -/
def lazyPages (s : VmapState) : ℕ := ((lazyAreas s).map fun va => areaPages (s.areas va)).sum

/-- What the areas freed since the last purge are after an operation. -/
def freedAfter (freed : List ℕ) : VmapOp → List ℕ
  | .alloc .. => freed
  | .free va => va :: freed
  | .purge _ => []

/-- The areas freed since the last purge of a run. -/
def freedSince (ops : List VmapOp) : List ℕ := ops.foldl freedAfter []

/-- What callers promise: an area allocated lies at kernel addresses, and an area freed is allocated
and was not freed before. -/
def Careful (vmlist : List Entry) (s : VmapState) (op : VmapOp) : Prop :=
  Legal s op ∧ Unwrapped s op ∧
    match op with
    | .alloc _ _ _ vend _ => vend ≤ 2 ^ 32
    | .free va => va ∉ vmlist.map Entry.va ∧ (s.areas va).lazyFree = false
    | .purge _ => True

/-- The counter is the number of pages of the areas freed lazily. -/
def Accounted (s : VmapState) : Prop := s.lazyNr = lazyPages s

/-- A purge from `t` to `u` takes out the areas freed and no imported one. -/
def TakesFreed (vmlist : List Entry) (freed : List ℕ) (t u : VmapState) : Prop :=
  u.areaList = t.areaList.filter (fun a => decide (a ∉ freed)) ∧
    ∀ e ∈ vmlist, e.va ∈ t.areaList → e.va ∈ u.areaList

/-- The counter is right after every run, and a purge then takes out the areas freed since the last
one. -/
def LazySound (vmlist : List Entry) (s : VmapState) : Prop :=
  ∀ ops t, Admissible perform (Careful vmlist) s ops → exec perform s ops = some t →
    Accounted t ∧ ∀ sync u, perform t (.purge sync) = some u →
      TakesFreed vmlist (freedSince ops) t u

/-- After every run the descriptor of each imported entry is found at its address. -/
def FindsImported (vmlist : List Entry) (s : VmapState) : Prop :=
  ∀ ops t, Admissible perform (Careful vmlist) s ops → exec perform s ops = some t →
    ∀ e ∈ vmlist, findVmArea t e.tmp.addr = some e.vm

variable {s t : VmapState} {T : ColoredTree ℕ} {va : ℕ} {vmlist : List Entry} {freed : List ℕ}

/-- The pages of an area that is freed lazily. -/
def lazyShare (s : VmapState) (a : ℕ) : ℕ :=
  if (s.areas a).lazyFree then areaPages (s.areas a) else 0

/-- The pages freed lazily, area by area. -/
theorem lazyPages_eq (s : VmapState) : lazyPages s = (s.areaList.map (lazyShare s)).sum := by
  rw [lazyPages, lazyAreas]
  induction s.areaList with
  | nil => rfl
  | cons a l ih =>
    rw [List.map_cons, List.sum_cons, ← ih, lazyShare]
    by_cases ha : (s.areas a).lazyFree = true
    · rw [List.filter_cons, if_pos ha, List.map_cons, List.sum_cons, if_pos ha]
    · rw [List.filter_cons, if_neg ha, if_neg ha, Nat.zero_add]

/-- One summand of a list without repetitions is changed. -/
theorem sum_map_changed {f g : ℕ → ℕ} {l : List ℕ} (hnodup : l.Nodup) (hva : va ∈ l)
    (h : ∀ a ∈ l, a ≠ va → g a = f a) : (l.map g).sum + f va = (l.map f).sum + g va := by
  induction l with
  | nil => cases hva
  | cons a l ih =>
    obtain ⟨hnot, hrest⟩ := List.nodup_cons.mp hnodup
    simp only [List.map_cons, List.sum_cons]
    by_cases ha : a = va
    · have hsame : l.map g = l.map f := by
        refine List.map_congr_left fun b hb => h b (List.mem_cons_of_mem _ hb) ?_
        intro hbv
        rw [ha, ← hbv] at hnot
        exact hnot hb
      rw [hsame, ha]
      omega
    · have hin : va ∈ l := (List.mem_cons.mp hva).resolve_left (Ne.symm ha)
      have hind := ih hrest hin fun b hb => h b (List.mem_cons_of_mem _ hb)
      have hfirst := h a List.mem_cons_self ha
      omega

/-- Without an area freed lazily there are no pages. -/
theorem lazyPages_eq_zero (h : ∀ a ∈ s.areaList, (s.areas a).lazyFree = false) :
    lazyPages s = 0 := by
  have hnone : lazyAreas s = [] := by
    rw [lazyAreas, List.filter_eq_nil_iff]
    intro a ha
    rw [h a ha]
    exact Bool.false_ne_true
  rw [lazyPages, hnone]
  rfl

/-- The pages of an area that spans one at least. -/
theorem areaPages_eq {area : VmapArea} (h : area.vaStart ≤ area.vaEnd) (hend : area.vaEnd < 2 ^ 64) :
    areaPages area = (area.vaEnd - area.vaStart) / pageSize := by
  rw [areaPages, wrapSub_of_le hend h]

/-- The state of a run without entries of `ioremap`. -/
structure LazyInv (vmlist : List Entry) (s : VmapState) (freed : List ℕ) : Prop where
  /-- The tree and the list are in order. -/
  ordered : Ordered s
  /-- The areas freed lazily are those freed since the last purge. -/
  lazy_iff : ∀ a ∈ s.areaList, (s.areas a).lazyFree = true ↔ a ∈ freed
  /-- These are in the list. -/
  listed : ∀ a ∈ freed, a ∈ s.areaList
  /-- Areas span a page at least, at kernel addresses. -/
  spans : ∀ a ∈ s.areaList, lo s a + pageSize ≤ hi s a ∧ hi s a ≤ 2 ^ 32
  /-- The counter. -/
  counted : s.lazyNr = lazyPages s
  /-- Too many pages freed lazily end in `stop`. -/
  few : lazyPages s ≤ lazyMaxPages
  /-- The imported areas stay. -/
  imported : ∀ e ∈ vmlist, e.va ∈ s.areaList ∧ e.va ∉ freed

/-- The pages of an area of the list. -/
theorem LazyInv.pages (h : LazyInv vmlist s freed) {a : ℕ} (ha : a ∈ s.areaList) :
    0 < areaPages (s.areas a) ∧ areaPages (s.areas a) ≤ 2 ^ 20 := by
  obtain ⟨hspan, hend⟩ := h.spans a ha
  rw [lo, hi, pageSize] at hspan
  rw [hi] at hend
  rw [areaPages_eq (by omega) (by omega), pageSize]
  omega

/-- An allocation keeps the invariant. -/
theorem LazyInv.alloc (h : LazyInv vmlist s freed) {size align vstart vend : ℕ} {answer : Option ℕ}
    (hok : Careful vmlist s (.alloc size align vstart vend answer))
    (hstep : perform s (.alloc size align vstart vend answer) = some t) :
    LazyInv vmlist t freed := by
  obtain ⟨T, hT⟩ := h.ordered
  have hlegal := hok.1
  have hvend : vend ≤ 2 ^ 32 := hok.2.2
  rw [perform, Option.map_eq_some_iff] at hstep
  obtain ⟨r, halloc, rfl⟩ := hstep
  rcases allocVmapArea_areas hT hlegal hok.2.1 halloc with ⟨-, rfl⟩ |
    ⟨va, addr, T', hanswer, -, hareas, hf, hend, hupdate, hperm, hnr, -⟩
  · exact h
  · obtain ⟨hpos, -, hsize, -, hnew⟩ := hlegal
    have hva : va ∉ s.areaList := (hnew va hanswer).2.2
    have hlist : r.2.areaList.Perm (va :: s.areaList) := by
      rw [hareas.list, hT.list]
      exact hperm
    have hmem : ∀ a, a ∈ r.2.areaList ↔ a = va ∨ a ∈ s.areaList := fun a => by
      rw [hlist.mem_iff, List.mem_cons]
    have hself : r.2.areas va = placedArea (s.areas va) addr (addr + size) := by
      rw [hupdate, Function.update_self]
    have hother : ∀ a ∈ s.areaList, r.2.areas a = s.areas a := by
      intro a ha
      have hne : a ≠ va := fun he => hva (he ▸ ha)
      rw [hupdate, Function.update_of_ne hne]
    have hpages : lazyPages r.2 = lazyPages s := by
      have hshare : lazyShare r.2 va = 0 := by
        rw [lazyShare, hself, placedArea]
        rfl
      have hsame : s.areaList.map (lazyShare r.2) = s.areaList.map (lazyShare s) :=
        List.map_congr_left fun a ha => by rw [lazyShare, lazyShare, hother a ha]
      rw [lazyPages_eq, lazyPages_eq, (hlist.map _).sum_eq, List.map_cons, List.sum_cons, hshare,
        Nat.zero_add, hsame]
    constructor
    · exact ⟨T', hareas⟩
    · intro a ha
      rcases (hmem a).mp ha with heq | hin
      · rw [heq, hself, placedArea]
        exact ⟨fun hf => Bool.noConfusion hf, fun hin => absurd (h.listed va hin) hva⟩
      · rw [hother a hin]
        exact h.lazy_iff a hin
    · intro a ha
      exact (hmem a).mpr (.inr (h.listed a ha))
    · intro a ha
      rcases (hmem a).mp ha with heq | hin
      · have hle : pageSize ≤ size := Nat.le_of_dvd hpos hsize
        rw [heq, lo, hi, hself, placedArea]
        exact ⟨Nat.add_le_add_left hle addr, hend.trans hvend⟩
      · rw [lo, hi, hother a hin]
        exact h.spans a hin
    · rw [hnr, hpages]
      exact h.counted
    · rw [hpages]
      exact h.few
    · intro e he
      obtain ⟨hin, hnot⟩ := h.imported e he
      exact ⟨(hmem e.va).mpr (.inr hin), hnot⟩

/-- Freeing an area keeps the invariant. -/
theorem LazyInv.free (h : LazyInv vmlist s freed) (hok : Careful vmlist s (.free va))
    (hstep : perform s (.free va) = some t) : LazyInv vmlist t (va :: freed) := by
  obtain ⟨T, hT⟩ := h.ordered
  have hva : va ∈ s.areaList := hok.1
  have himported : va ∉ vmlist.map Entry.va := hok.2.2.1
  have hlive : (s.areas va).lazyFree = false := hok.2.2.2
  obtain ⟨hpos, hle⟩ := h.pages hva
  have hcounted := h.counted
  have hfew := h.few
  have hmax : lazyMaxPages = 8192 := by decide
  have hnr : toSigned 32 (s.lazyNr + toSigned 32 (areaPages (s.areas va))) =
      ((lazyPages s + areaPages (s.areas va) : ℕ) : ℤ) := by
    rw [toSigned_of_lt (by decide) (show areaPages (s.areas va) < 2 ^ (32 - 1) by omega), hcounted,
      ← Nat.cast_add, toSigned_of_lt (by decide) (by omega)]
  have hareas := freeVmapAreaNoflush_areas hT hstep
  rw [perform, freeVmapAreaNoflush, hnr] at hstep
  dsimp only at hstep
  by_cases hmany : lazyMaxPages < toUnsigned 64 ((lazyPages s + areaPages (s.areas va) : ℕ) : ℤ)
  · rw [if_pos hmany] at hstep
    cases hstep
  · rw [if_neg hmany, Option.some.injEq] at hstep
    have hself : t.areas va = { s.areas va with lazyFree := true } := by
      rw [← hstep]
      exact Function.update_self _ _ _
    have hother : ∀ a, a ≠ va → t.areas a = s.areas a := by
      intro a hne
      rw [← hstep]
      exact Function.update_of_ne hne _ _
    have hlist : t.areaList = s.areaList := by
      rw [← hstep]
      rfl
    have hcount : t.lazyNr = ((lazyPages s + areaPages (s.areas va) : ℕ) : ℤ) := by rw [← hstep]
    have hpages : lazyPages t = lazyPages s + areaPages (s.areas va) := by
      have hnodup : s.areaList.Nodup := by
        rw [hT.list]
        exact hT.rep.nodup
      have hsum := sum_map_changed hnodup hva (f := lazyShare s) (g := lazyShare t) fun a _ hne => by
        rw [lazyShare, lazyShare, hother a hne]
      have hbefore : lazyShare s va = 0 := by rw [lazyShare, hlive]; rfl
      have hafter : lazyShare t va = areaPages (s.areas va) := by
        rw [lazyShare, hself]
        rfl
      rw [lazyPages_eq, lazyPages_eq, hlist]
      omega
    constructor
    · exact ⟨T, hareas⟩
    · intro a ha
      rw [hlist] at ha
      by_cases heq : a = va
      · rw [heq, hself]
        exact ⟨fun _ => List.mem_cons_self, fun _ => rfl⟩
      · rw [hother a heq, List.mem_cons, or_iff_right heq]
        exact h.lazy_iff a ha
    · intro a ha
      rw [hlist]
      rcases List.mem_cons.mp ha with heq | hin
      · rw [heq]
        exact hva
      · exact h.listed a hin
    · intro a ha
      rw [hlist] at ha
      by_cases heq : a = va
      · rw [heq, lo, hi, hself]
        exact h.spans va hva
      · rw [lo, hi, hother a heq]
        exact h.spans a ha
    · rw [hcount, hpages]
    · have hword : (toUnsigned 64 ((lazyPages s + areaPages (s.areas va) : ℕ) : ℤ) : ℤ) =
          ((lazyPages s + areaPages (s.areas va) : ℕ) : ℤ) :=
        toUnsigned_of_lt (by omega) (by omega)
      rw [hpages]
      omega
    · intro e he
      obtain ⟨hin, hnot⟩ := h.imported e he
      have hne : e.va ≠ va := fun heq => himported (heq ▸ List.mem_map_of_mem he)
      rw [hlist]
      exact ⟨hin, fun hc => (List.mem_cons.mp hc).elim hne hnot⟩

/-- Taking areas out leaves the counter alone. -/
theorem freeVmapAreas_lazyNr {l : List ℕ} (h : l.foldlM freeVmapArea s = some t) :
    t.lazyNr = s.lazyNr := by
  induction l generalizing s with
  | nil =>
    cases h
    rfl
  | cons a l ih =>
    rw [List.foldlM_cons] at h
    obtain ⟨u, hfree, hrest⟩ := Option.bind_eq_some_iff.mp h
    rw [freeVmapArea, Option.map_eq_some_iff] at hfree
    obtain ⟨root, -, hu⟩ := hfree
    rw [ih hrest, ← hu]

/-- A purge takes the pages collected off the counter. -/
theorem purge_lazyNr (h : purgeVmapAreaLazy s false = some t) :
    t.lazyNr = if toSigned 32 (lazyPages s) = 0 then s.lazyNr
      else toSigned 32 (s.lazyNr - toSigned 32 (lazyPages s)) := by
  rw [purgeVmapAreaLazy, if_neg Bool.false_ne_true] at h
  dsimp only at h
  rw [lazyPages]
  by_cases hnr : toSigned 32 ((lazyAreas s).map fun va => areaPages (s.areas va)).sum = 0
  · rw [if_pos hnr, Option.some.injEq] at h
    rw [if_pos hnr, ← h, markFreeing]
  · rw [if_neg hnr] at h
    rw [if_neg hnr, freeVmapAreas_lazyNr h, markFreeing]

/-- The areas collected are those freed since the last purge. -/
theorem LazyInv.mem_lazyAreas (h : LazyInv vmlist s freed) {a : ℕ} (ha : a ∈ s.areaList) :
    a ∈ lazyAreas s ↔ a ∈ freed := by
  rw [lazyAreas, List.mem_filter, h.lazy_iff a ha, and_iff_right ha]

/-- Without pages freed lazily no area was freed. -/
theorem LazyInv.lazyAreas_nil (h : LazyInv vmlist s freed) (hzero : lazyPages s = 0) :
    lazyAreas s = [] := by
  rw [List.eq_nil_iff_forall_not_mem]
  intro a ha
  have hin := (List.mem_filter.mp ha).1
  have hle : areaPages (s.areas a) ≤ lazyPages s :=
    List.le_sum_of_mem (List.mem_map_of_mem (f := fun va => areaPages (s.areas va)) ha)
  have := (h.pages hin).1
  omega

/-- A purge takes out the areas freed and keeps the invariant. -/
theorem LazyInv.purge (h : LazyInv vmlist s freed) {sync : Bool}
    (hstep : perform s (.purge sync) = some t) :
    LazyInv vmlist t [] ∧ t.areaList = s.areaList.filter (fun a => decide (a ∉ freed)) := by
  obtain ⟨T, hT⟩ := h.ordered
  cases sync with
  | true => cases hstep
  | false =>
    obtain ⟨t', T', hpurge, hareas, hmarked, -, hitems⟩ := purgeVmapAreaLazy_areas hT
    rw [perform, hpurge, Option.some.injEq] at hstep
    subst hstep
    have hfew := h.few
    have hmax : lazyMaxPages = 8192 := by decide
    have hnr : toSigned 32 (lazyPages s) = lazyPages s := toSigned_of_lt (by decide) (by omega)
    have hzero : t'.lazyNr = 0 := by
      rw [purge_lazyNr hpurge, hnr, h.counted]
      by_cases hz : (lazyPages s : ℤ) = 0
      · rw [if_pos hz, hz]
      · rw [if_neg hz, sub_self]
        rfl
    have hfilter : s.areaList.filter (fun a => decide (a ∉ lazyAreas s)) =
        s.areaList.filter (fun a => decide (a ∉ freed)) :=
      List.filter_congr fun a ha => by simp only [h.mem_lazyAreas ha]
    have hlist : t'.areaList = s.areaList.filter (fun a => decide (a ∉ freed)) := by
      rw [hareas.list, ← hfilter, hT.list]
      rcases hitems with hitems | ⟨hitems, hsum⟩
      · exact hitems
      · have hnil : lazyAreas s = [] := h.lazyAreas_nil (by
          rw [lazyPages] at hnr ⊢
          omega)
        rw [hitems, hnil]
        simp
    have hmem : ∀ a ∈ t'.areaList, a ∈ s.areaList ∧ a ∉ freed := by
      intro a ha
      rw [hlist, List.mem_filter, decide_eq_true_eq] at ha
      exact ha
    have hsame : ∀ a ∈ t'.areaList, t'.areas a = s.areas a := by
      intro a ha
      obtain ⟨hin, hnot⟩ := hmem a ha
      have hout : a ∉ lazyAreas s := fun hc => hnot ((h.mem_lazyAreas hin).mp hc)
      simp only [hmarked, markFreeing, if_neg hout]
    have hlive : ∀ a ∈ t'.areaList, (t'.areas a).lazyFree = false := by
      intro a ha
      obtain ⟨hin, hnot⟩ := hmem a ha
      rw [hsame a ha, Bool.eq_false_iff]
      exact fun hc => hnot ((h.lazy_iff a hin).mp hc)
    refine ⟨?_, hlist⟩
    constructor
    · exact ⟨T', hareas⟩
    · intro a ha
      rw [hlive a ha]
      exact ⟨fun hf => Bool.noConfusion hf, fun hc => (List.not_mem_nil hc).elim⟩
    · exact fun a ha => (List.not_mem_nil ha).elim
    · intro a ha
      rw [lo, hi, hsame a ha]
      exact h.spans a (hmem a ha).1
    · rw [hzero, lazyPages_eq_zero hlive]
      rfl
    · rw [lazyPages_eq_zero hlive]
      exact Nat.zero_le _
    · intro e he
      obtain ⟨hin, hnot⟩ := h.imported e he
      rw [hlist, List.mem_filter, decide_eq_true_eq]
      exact ⟨⟨hin, hnot⟩, List.not_mem_nil⟩

/-- Every operation keeps the invariant. -/
theorem LazyInv.step (h : LazyInv vmlist s freed) {op : VmapOp} (hok : Careful vmlist s op)
    (hstep : perform s op = some t) : LazyInv vmlist t (freedAfter freed op) := by
  cases op with
  | alloc size align vstart vend answer => exact h.alloc hok hstep
  | free va => exact h.free hok hstep
  | purge sync => exact (h.purge hstep).1

/-- From a state with the invariant every run is sound. -/
theorem LazyInv.sound (h : LazyInv vmlist s []) : LazySound vmlist s := by
  intro ops t hadm hrun
  have hinv : LazyInv vmlist t (freedSince ops) :=
    exec_tracks freedAfter (fun s freed => LazyInv vmlist s freed)
      (fun s freed op t hi hok hs => hi.step hok hs) h hadm hrun
  refine ⟨hinv.counted, fun sync u hpurge => ?_⟩
  obtain ⟨hafter, hlist⟩ := hinv.purge hpurge
  exact ⟨hlist, fun e he _ => (hafter.imported e he).1⟩

/-- Entries that are clear of the areas there are. -/
structure Importable (s : VmapState) (T : ColoredTree ℕ) (vmlist : List Entry) : Prop where
  /-- They are a `vmlist`. -/
  entries : Entries vmlist
  /-- Their areas are new. -/
  new : ∀ e ∈ vmlist, e.va ∉ T.items
  /-- Their ranges are clear of all areas. -/
  clear : ∀ e ∈ vmlist, ∀ a ∈ T.items,
    e.tmp.addr + e.tmp.size ≤ lo s a ∨ hi s a ≤ e.tmp.addr

/-- What importing entries gives. -/
structure Imported (s t : VmapState) (T T' : ColoredTree ℕ) (vmlist : List Entry) : Prop where
  /-- The areas are in order. -/
  areas : Areas t T'
  /-- The areas are those before and those of the entries. -/
  mem_iff : ∀ a, a ∈ T'.items ↔ a ∈ vmlist.map Entry.va ∨ a ∈ T.items
  /-- The areas of the entries. -/
  entry : ∀ e ∈ vmlist, t.areas e.va = importedArea e.tmp
  /-- The areas before. -/
  old : ∀ a ∈ T.items, t.areas a = s.areas a
  /-- The counter is as before. -/
  lazyNr : t.lazyNr = s.lazyNr

/-- The rest of a `vmlist`. -/
theorem Entries.tail {e : Entry} {rest : List Entry} (h : Entries (e :: rest)) : Entries rest where
  apart := h.apart.of_cons
  bound d hd := h.bound d (List.mem_cons_of_mem _ hd)
  vm d hd := h.vm d (List.mem_cons_of_mem _ hd)
  va d hd := h.va d (List.mem_cons_of_mem _ hd)
  nodup := (List.nodup_cons.mp h.nodup).2

/-- The ends of the area of an entry. -/
theorem importedArea_ends {e : Entry} (h : e.tmp.addr + e.tmp.size ≤ 2 ^ 32) :
    (importedArea e.tmp).vaStart = e.tmp.addr ∧
      (importedArea e.tmp).vaEnd = e.tmp.addr + e.tmp.size :=
  ⟨rfl, wrap_of_lt (by omega)⟩

/-- Importing the first entry. -/
theorem importEntry_spec (hT : Areas s T) {e : Entry} {rest : List Entry}
    (h : Importable s T (e :: rest)) :
    ∃ t T', insertVmapArea (setArea s e.va (importedArea e.tmp)) e.va = some t ∧
      Imported s t T T' [e] ∧ Importable t T' rest := by
  have he : e ∈ e :: rest := List.mem_cons_self
  obtain ⟨hsize, hend⟩ := h.entries.bound e he
  obtain ⟨hstart, hstop⟩ := importedArea_ends hend
  have hpage : pageSize = 4096 := rfl
  have hnew := h.new e he
  have hset := setArea_areas hT hnew (importedArea e.tmp)
  have hself : (setArea s e.va (importedArea e.tmp)).areas e.va = importedArea e.tmp :=
    Function.update_self _ _ _
  have hother : ∀ a, a ≠ e.va → (setArea s e.va (importedArea e.tmp)).areas a = s.areas a :=
    fun a hne => Function.update_of_ne hne _ _
  have hne : ∀ a ∈ T.items, a ≠ e.va := fun a ha heq => hnew (heq ▸ ha)
  have hnr : (setArea s e.va (importedArea e.tmp)).lazyNr = s.lazyNr := rfl
  generalize setArea s e.va (importedArea e.tmp) = s' at hset hself hother hnr ⊢
  have hlo : lo s' e.va = e.tmp.addr := by rw [lo, hself, hstart]
  have hhi : hi s' e.va = e.tmp.addr + e.tmp.size := by rw [hi, hself, hstop]
  have hdisj : ∀ a ∈ T.items, Clear (lo s') (hi s') e.va a := by
    intro a ha
    rw [Clear, hlo, hhi, lo, hi, hother a (hne a ha)]
    exact h.clear e he a ha
  obtain ⟨root, list, T', hinsert, hareas, hperm⟩ := insertVmapArea_areas hset hdisj
    (by rw [hlo, hhi]; omega) (by rw [hhi]; omega) hnew (h.entries.va e he)
  have hmem : ∀ a, a ∈ T'.items ↔ a = e.va ∨ a ∈ T.items := fun a => by
    rw [hperm.mem_iff, List.mem_cons]
  refine ⟨_, T', hinsert, ⟨hareas, fun a => ?_, fun d hd => ?_, fun a ha => hother a (hne a ha), hnr⟩,
    ⟨h.entries.tail, fun d hd => ?_, fun d hd a ha => ?_⟩⟩
  · rw [hmem, List.map_cons, List.map_nil, List.mem_singleton]
  · rw [List.mem_singleton.mp hd]
    exact hself
  · have hfirst : e.va ∉ rest.map Entry.va := (List.nodup_cons.mp h.entries.nodup).1
    rw [hmem, not_or]
    refine ⟨fun heq => hfirst ?_, h.new d (List.mem_cons_of_mem _ hd)⟩
    rw [← heq]
    exact List.mem_map_of_mem hd
  · rcases (hmem a).mp ha with heq | hin
    · have hapart := List.rel_of_pairwise_cons h.entries.apart hd
      have hlo' : s'.areas e.va = importedArea e.tmp := hself
      rw [heq, lo, hi]
      simp only [hlo', hstart, hstop]
      exact hapart.symm
    · rw [lo, hi]
      simp only [hother a (hne a hin)]
      exact h.clear d (List.mem_cons_of_mem _ hd) a hin

/-- Importing entries. -/
theorem importEntries_spec (hT : Areas s T) (h : Importable s T vmlist) :
    ∃ t T', importEntries s vmlist = some t ∧ Imported s t T T' vmlist := by
  induction vmlist generalizing s T with
  | nil =>
    refine ⟨s, T, rfl, hT, fun a => ?_, fun e he => (List.not_mem_nil he).elim, fun _ _ => rfl, rfl⟩
    simp
  | cons e rest ih =>
    obtain ⟨u, T₁, hinsert, hfirst, hrest⟩ := importEntry_spec hT h
    obtain ⟨t, T', himport, hafter⟩ := ih hfirst.areas hrest
    refine ⟨t, T', by rw [importEntries, hinsert, Option.bind_some, himport], hafter.areas, ?_, ?_,
      ?_, hafter.lazyNr.trans hfirst.lazyNr⟩
    · intro a
      rw [hafter.mem_iff, hfirst.mem_iff]
      simp only [List.map_cons, List.map_nil, List.mem_cons, List.not_mem_nil, or_false]
      tauto
    · intro d hd
      rcases List.mem_cons.mp hd with heq | hin
      · have hmem : e.va ∈ T₁.items := (hfirst.mem_iff e.va).mpr (.inl (by simp))
        rw [heq, hafter.old e.va hmem]
        exact hfirst.entry e List.mem_cons_self
      · exact hafter.entry d hin
    · intro a ha
      rw [hafter.old a ((hfirst.mem_iff a).mpr (.inr ha)), hfirst.old a ha]

/-- The state in which `vmalloc_init` runs: no area and nothing freed. -/
structure Fresh (s : VmapState) : Prop where
  /-- There is no area. -/
  areas : Areas s .nil
  /-- Nothing is counted. -/
  lazyNr : s.lazyNr = 0

/-- `vmalloc_init` imports every `vmlist`. -/
theorem vmallocInit_spec (hs : Fresh s) (h : Entries vmlist) :
    ∃ t T, vmallocInit s vmlist = some t ∧ Imported s t .nil T vmlist := by
  have himportable : Importable s .nil vmlist :=
    ⟨h, fun _ _ => List.not_mem_nil, fun _ _ a ha => (List.not_mem_nil ha).elim⟩
  obtain ⟨t, T, himport, hspec⟩ := importEntries_spec hs.areas himportable
  refine ⟨{ t with pcpuHole := vmallocEnd }, T, by rw [vmallocInit, himport, Option.map_some], ?_,
    hspec.mem_iff, hspec.entry, hspec.old, hspec.lazyNr⟩
  exact hspec.areas.congr rfl rfl (fun _ _ => rfl) fun _ _ => rfl

/-- Without an entry of `ioremap` the imported areas start a sound run. -/
theorem Imported.lazyInv (hs : Fresh s) (h : Entries vmlist) (hi : Imported s t .nil T vmlist)
    (hflags : ∀ e ∈ vmlist, e.tmp.flags &&& vmIoremap = 0) : LazyInv vmlist t [] := by
  have hentry : ∀ a ∈ t.areaList, ∃ e ∈ vmlist, e.va = a ∧ t.areas a = importedArea e.tmp := by
    intro a ha
    rw [hi.areas.list, hi.mem_iff] at ha
    obtain ⟨e, he, heq⟩ := List.mem_map.mp (ha.resolve_right List.not_mem_nil)
    exact ⟨e, he, heq, heq ▸ hi.entry e he⟩
  have hlive : ∀ a ∈ t.areaList, (t.areas a).lazyFree = false := by
    intro a ha
    obtain ⟨e, he, _, harea⟩ := hentry a ha
    rw [harea, importedArea, hflags e he]
    rfl
  constructor
  · exact ⟨T, hi.areas⟩
  · intro a ha
    rw [hlive a ha]
    exact ⟨fun hf => Bool.noConfusion hf, fun hc => (List.not_mem_nil hc).elim⟩
  · exact fun a ha => (List.not_mem_nil ha).elim
  · intro a ha
    obtain ⟨e, he, _, harea⟩ := hentry a ha
    obtain ⟨hsize, hend⟩ := h.bound e he
    obtain ⟨hstart, hstop⟩ := importedArea_ends hend
    rw [lo, VmapTree.hi, harea, hstart, hstop]
    exact ⟨Nat.add_le_add_left hsize _, hend⟩
  · rw [lazyPages_eq_zero hlive, hi.lazyNr, hs.lazyNr]
    rfl
  · rw [lazyPages_eq_zero hlive]
    exact Nat.zero_le _
  · intro e he
    rw [hi.areas.list, hi.mem_iff]
    exact ⟨.inl (List.mem_map_of_mem he), List.not_mem_nil⟩

/-- With an entry of `ioremap` the counter is wrong at once. -/
theorem Imported.not_accounted (hs : Fresh s) (h : Entries vmlist) (hi : Imported s t .nil T vmlist)
    {e : Entry} (he : e ∈ vmlist) (hflags : e.tmp.flags &&& vmIoremap ≠ 0) : ¬Accounted t := by
  intro hacc
  have hin : e.va ∈ t.areaList := by
    rw [hi.areas.list, hi.mem_iff]
    exact .inl (List.mem_map_of_mem he)
  have harea := hi.entry e he
  obtain ⟨hsize, hend⟩ := h.bound e he
  obtain ⟨hstart, hstop⟩ := importedArea_ends hend
  have hlazy : e.va ∈ lazyAreas t := by
    rw [lazyAreas, List.mem_filter, harea, importedArea]
    exact ⟨hin, decide_eq_true hflags⟩
  have hle : areaPages (t.areas e.va) ≤ lazyPages t :=
    List.le_sum_of_mem (List.mem_map_of_mem (f := fun va => areaPages (t.areas va)) hlazy)
  have hpage : pageSize = 4096 := rfl
  have hpages : 0 < areaPages (t.areas e.va) := by
    rw [harea, areaPages_eq (by omega) (by omega), hstart, hstop, Nat.add_sub_cancel_left]
    exact Nat.div_pos hsize (by decide)
  rw [Accounted, hi.lazyNr, hs.lazyNr] at hacc
  omega

/-- The descriptor of an imported entry is not found. -/
theorem Imported.findVmArea_eq (hi : Imported s t .nil T vmlist) {e : Entry}
    (he : e ∈ vmlist) : findVmArea t e.tmp.addr = some 0 := by
  have hin : e.va ∈ T.items := (hi.mem_iff e.va).mpr (.inl (List.mem_map_of_mem he))
  have harea := hi.entry e he
  have hlo : lo t e.va = e.tmp.addr := by rw [lo, harea, importedArea]
  have hfound := findVmapArea_found hi.areas hin
  rw [hlo] at hfound
  rw [findVmArea, hfound, Option.map_some, harea, importedArea, ite_self]

/-- The accounting is right and every imported descriptor is found in every run exactly when
nothing is imported; the accounting alone exactly when no entry is one of `ioremap`. -/
theorem vmallocInit_sound_iff (s : VmapState) (vmlist : List Entry) (hs : Fresh s)
    (h : Entries vmlist) :
    ∃ t, vmallocInit s vmlist = some t ∧
      (LazySound vmlist t ∧ FindsImported vmlist t ↔ vmlist = []) ∧
      (LazySound vmlist t ↔ ∀ e ∈ vmlist, e.tmp.flags &&& vmIoremap = 0) := by
  obtain ⟨t, T, hinit, hi⟩ := vmallocInit_spec hs h
  have hsound : LazySound vmlist t ↔ ∀ e ∈ vmlist, e.tmp.flags &&& vmIoremap = 0 := by
    constructor
    · intro hlazy e he
      by_contra hflags
      exact hi.not_accounted hs h he hflags (hlazy [] t trivial rfl).1
    · intro hflags
      exact (hi.lazyInv hs h hflags).sound
  refine ⟨t, hinit, ?_, hsound⟩
  constructor
  · intro hboth
    rw [List.eq_nil_iff_forall_not_mem]
    intro e he
    have hfound := hboth.2 [] t trivial rfl e he
    rw [hi.findVmArea_eq he, Option.some.injEq] at hfound
    exact h.vm e he hfound.symm
  · intro hnil
    subst hnil
    exact ⟨hsound.mpr fun e he => (List.not_mem_nil he).elim,
      fun _ _ _ _ e he => (List.not_mem_nil he).elim⟩

/-- The allocator without areas is fresh. -/
theorem noAreas_fresh : Fresh noAreas :=
  ⟨⟨⟨rfl, trivial, List.nodup_nil, fun a ha => (by cases ha)⟩, ⟨0, .nil⟩, rfl,
    ⟨fun a ha => (by cases ha), List.Pairwise.nil⟩, fun a ha => (by cases ha)⟩, rfl⟩

/-- An area of `vmalloc`, of a page and its guard page. -/
def vmallocEntry : List Entry := [⟨2048, ⟨0xE0002000, 8192, 2, 0, 1⟩, 16⟩]

/-- It is accounted for, but its descriptor is not found. -/
theorem vmallocInit_sound_iff_vmalloc : ∃ t, vmallocInit noAreas vmallocEntry = some t ∧
    LazySound vmallocEntry t ∧ ¬FindsImported vmallocEntry t := by
  obtain ⟨t, hinit, hboth, hlazy⟩ := vmallocInit_sound_iff noAreas vmallocEntry noAreas_fresh
    ⟨by decide, by decide, by decide, by decide, by decide⟩
  have hsound : LazySound vmallocEntry t := hlazy.mpr (by decide)
  exact ⟨t, hinit, hsound, fun hfinds => absurd (hboth.mp ⟨hsound, hfinds⟩) (by decide)⟩

/-- Registers mapped by `ioremap` and an area of `vmalloc`, each of a page and its guard page. -/
def bootEntries : List Entry :=
  [⟨1024, ⟨0xE0000000, 8192, 1, 0, 0⟩, 8⟩, ⟨2048, ⟨0xE0002000, 8192, 2, 0, 1⟩, 16⟩]

/-- They are a `vmlist`. -/
theorem bootEntries_entries : Entries bootEntries :=
  ⟨by decide, by decide, by decide, by decide, by decide⟩

/-- The registers are counted by nothing and found nowhere, and the first purge takes their area
out. -/
theorem vmallocInit_purged : Entries bootEntries ∧
    ∃ t u, vmallocInit noAreas bootEntries = some t ∧ perform t (.purge false) = some u ∧
      t.areaList = [8, 16] ∧ u.areaList = [16] ∧ t.lazyNr = 0 ∧ lazyPages t = 2 ∧ u.lazyNr = -2 ∧
      findVmArea t 0xE0000000 = some 0 := by
  have hrun : ((vmallocInit noAreas bootEntries).bind fun t =>
      (perform t (.purge false)).map fun u =>
        ((t.areaList, u.areaList), (t.lazyNr, lazyPages t, u.lazyNr), findVmArea t 0xE0000000)) =
      some (([8, 16], [16]), (0, 2, -2), some 0) := by
    decide +kernel
  simp only [Option.bind_eq_some_iff, Option.map_eq_some_iff, Prod.mk.injEq] at hrun
  obtain ⟨t, ht, u, hu, ⟨htl, hul⟩, ⟨htn, hp, hun⟩, hfind⟩ := hrun
  exact ⟨bootEntries_entries, t, u, ht, hu, htl, hul, htn, hp, hun, hfind⟩

end BiscuitOS.VmapLazy
