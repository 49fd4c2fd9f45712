import BiscuitOS.MachineWord
import BiscuitOS.TransitionRun

/-!
# References to pages

`get_page`, `get_page_unless_zero` and `put_page` for a page that is not part
of a compound block, with the atomic operations of `linux/atomic.h`.
`atomic_cmpxchg` answers one and stores nothing, and the release of a page
takes it off an LRU list without asking whether it is on one.
-/

namespace BiscuitOS.PageRefs

open MachineWord TransitionRun

/-- `LIST_POISON1`. -/
def listPoison1 : ℕ := 0x00100100

/-- `LIST_POISON2`. -/
def listPoison2 : ℕ := 0x00200200

/-- `NR_UNEVICTABLE`. -/
def nrUnevictable : ℕ := 5

/-- `hpage_nr_pages`. -/
def hpageNrPages : ℤ := 1

/-- `struct list_head`. -/
structure ListHead where
  /-- `next`. -/
  next : ℕ
  /-- `prev`. -/
  prev : ℕ
  deriving DecidableEq

/-- A page, the statistics of its zone and of the system, and the links of lists. -/
structure PageState where
  /-- `_count`. -/
  count : ℤ
  /-- The address of `lru`. -/
  lru : ℕ
  /-- The links of lists, by address. -/
  links : ℕ → ListHead
  /-- `vm_stat` of the zone. -/
  zoneStat : ℕ → ℤ
  /-- `vm_stat`. -/
  vmStat : ℕ → ℤ
  /-- How often the page was passed to `free_hot_cold_page`. -/
  freed : ℕ

/-- `atomic_add_return`. -/
def atomicAddReturn (i counter : ℤ) : ℤ := toSigned 32 (counter + i)

/-- `atomic_sub_return`. -/
def atomicSubReturn (i counter : ℤ) : ℤ := toSigned 32 (counter - i)

/-- `atomic_cmpxchg`: the answer and the counter. -/
def atomicCmpxchg (counter _old _new : ℤ) : ℤ × ℤ := (1, counter)

/-- The loop of `atomic_add_unless` with what was read last, and fuel: what was read last and the
counter. -/
def addUnlessLoop (a u : ℤ) : ℕ → ℤ → ℤ → Option (ℤ × ℤ)
  | 0, _, _ => none
  | fuel + 1, counter, c =>
    if c ≠ u then
      let swapped := atomicCmpxchg counter c (toSigned 32 (c + a))
      if swapped.1 ≠ c then addUnlessLoop a u fuel swapped.2 swapped.1 else some (c, swapped.2)
    else some (c, counter)

/-- `atomic_add_unless`: the answer and the counter. -/
def atomicAddUnless (counter a u : ℤ) (fuel : ℕ) : Option (Bool × ℤ) :=
  (addUnlessLoop a u fuel counter counter).map fun r => (decide (r.1 ≠ u), r.2)

/-- `get_page`. -/
def getPage (s : PageState) : PageState := { s with count := atomicAddReturn 1 s.count }

/-- `get_page_unless_zero`: the answer and the state. -/
def getPageUnlessZero (s : PageState) (fuel : ℕ) : Option (Bool × PageState) :=
  (atomicAddUnless s.count 1 0 fuel).map fun r => (r.1, { s with count := r.2 })

/-- `list_del`; following a poisoned link does not return. -/
def listDel (links : ℕ → ListHead) (entry : ℕ) : Option (ℕ → ListHead) :=
  let next := (links entry).next
  let prev := (links entry).prev
  if next = listPoison1 ∨ prev = listPoison2 then none
  else
    let links := Function.update links next { links next with prev := prev }
    let links := Function.update links prev { links prev with next := next }
    some (Function.update links entry ⟨listPoison1, listPoison2⟩)

/-- `zone_page_state_add`; an `atomic_long_t` is an `atomic_t`, whose counter is an `int`. -/
def zonePageStateAdd (s : PageState) (x : ℤ) (item : ℕ) : PageState :=
  { s with
    zoneStat := Function.update s.zoneStat item (toSigned 32 (s.zoneStat item + x))
    vmStat := Function.update s.vmStat item (toSigned 32 (s.vmStat item + x)) }

/-- `del_page_from_lru`: every page counts as unevictable. -/
def delPageFromLru (s : PageState) : Option PageState :=
  (listDel s.links s.lru).map fun links =>
    zonePageStateAdd { s with links := links } (-hpageNrPages) nrUnevictable

/-- `__put_single_page`. -/
def putSinglePage (s : PageState) : Option PageState :=
  (delPageFromLru s).map fun s => { s with freed := s.freed + 1 }

/-- `put_page`. -/
def putPage (s : PageState) : Option PageState :=
  let count := atomicSubReturn 1 s.count
  if count = 0 then putSinglePage { s with count := count } else some { s with count := count }

/-- The page, and the references taken and dropped. -/
structure RefWorld where
  /-- The page. -/
  page : PageState
  /-- The gets that were successful. -/
  gets : ℕ
  /-- The puts. -/
  puts : ℕ

/-- What holders of references do. -/
inductive RefOp
  /-- `get_page`. -/
  | get
  /-- `get_page_unless_zero`. -/
  | getUnlessZero
  /-- `put_page`. -/
  | put
  deriving DecidableEq

/-- Perform an operation; the loop of `get_page_unless_zero` ends in two rounds. -/
def perform (w : RefWorld) : RefOp → Option RefWorld
  | .get => some { w with page := getPage w.page, gets := w.gets + 1 }
  | .getUnlessZero =>
    (getPageUnlessZero w.page 2).map fun r =>
      { w with page := r.2, gets := if r.1 then w.gets + 1 else w.gets }
  | .put => (putPage w.page).map fun page => { w with page := page, puts := w.puts + 1 }

/-- Only holders of a reference get and put pages. -/
def Legal (w : RefWorld) : RefOp → Prop
  | .get => w.puts < 1 + w.gets
  | .getUnlessZero => True
  | .put => w.puts < 1 + w.gets

/-- Promises of holders are decided. -/
instance decidableLegal (w : RefWorld) : (op : RefOp) → Decidable (Legal w op)
  | .get => inferInstanceAs (Decidable (w.puts < 1 + w.gets))
  | .getUnlessZero => isTrue trivial
  | .put => inferInstanceAs (Decidable (w.puts < 1 + w.gets))

/-- A page that was handed out. -/
def HandedOut (w : RefWorld) : Prop :=
  w.page.count = 1 ∧ w.page.freed = 0 ∧ w.gets = 0 ∧ w.puts = 0

/-- References are counted since the page was handed out in `s`. -/
structure Counted (s : PageState) (w : RefWorld) : Prop where
  /-- `_count` is one, with the gets and without the puts. -/
  count : w.page.count = 1 + w.gets - w.puts
  /-- The page is freed with its last reference, once. -/
  freed : w.page.freed = if w.puts = 1 + w.gets then 1 else 0
  /-- No list changes. -/
  links : w.page.links = s.links
  /-- No statistic of the zone changes. -/
  zoneStat : w.page.zoneStat = s.zoneStat
  /-- No statistic of the system changes. -/
  vmStat : w.page.vmStat = s.vmStat

/-- The operation does not reach a defect: it is not `get_page_unless_zero` for a count that is
not zero, and it neither drops the last reference nor exceeds an `int`. -/
def Meets (w : RefWorld) : RefOp → Prop
  | .get => w.page.count + 1 < 2 ^ 31
  | .getUnlessZero => w.page.count = 0
  | .put => w.page.count ≠ 1

/-- Whether a defect is reached is decided. -/
instance decidableMeets (w : RefWorld) : (op : RefOp) → Decidable (Meets w op)
  | .get => inferInstanceAs (Decidable (w.page.count + 1 < 2 ^ 31))
  | .getUnlessZero => inferInstanceAs (Decidable (w.page.count = 0))
  | .put => inferInstanceAs (Decidable (w.page.count ≠ 1))

variable {w t : RefWorld} {s : PageState} {ops : List RefOp}

/-- `atomic_add_unless` ends in two rounds, answers whether the counter differs, and leaves it. -/
theorem atomicAddUnless_eq (counter : ℤ) (fuel : ℕ) :
    atomicAddUnless counter 1 0 (fuel + 2) = some (decide (counter ≠ 0), counter) := by
  rw [atomicAddUnless, addUnlessLoop]
  by_cases hzero : counter = 0
  · rw [if_neg (not_not.mpr hzero), Option.map_some]
  · rw [if_pos hzero, atomicCmpxchg]
    dsimp only
    by_cases hone : (1 : ℤ) = counter
    · rw [if_neg (not_not.mpr hone), Option.map_some]
    · rw [if_pos hone, addUnlessLoop, atomicCmpxchg]
      simp [hzero]

/-- `get_page_unless_zero` answers whether the count is not zero and leaves it. -/
theorem getPageUnlessZero_eq (s : PageState) (fuel : ℕ) :
    getPageUnlessZero s (fuel + 2) = some (decide (s.count ≠ 0), s) := by
  rw [getPageUnlessZero, atomicAddUnless_eq, Option.map_some]

/-- A small count is that of an `int`. -/
theorem toSigned_small {x : ℤ} (h0 : 0 ≤ x) (h : x < 2 ^ 31) : toSigned 32 x = x := by
  obtain ⟨n, rfl⟩ := Int.eq_ofNat_of_zero_le h0
  exact toSigned_of_lt (by decide) (by omega)

/-- An operation that does not reach a defect keeps the references counted. -/
theorem Counted.step (h : Counted s w) (hsmall : w.page.count < 2 ^ 31) {op : RefOp}
    (hlegal : Legal w op) (hmeets : Meets w op) :
    ∃ t, perform w op = some t ∧ Counted s t ∧ t.page.count < 2 ^ 31 := by
  have hcount := h.count
  have hfreed := h.freed
  cases op with
  | get =>
    have hheld : w.puts < 1 + w.gets := hlegal
    have hroom : w.page.count + 1 < 2 ^ 31 := hmeets
    have hnew : (getPage w.page).count = w.page.count + 1 := toSigned_small (by omega) hroom
    refine ⟨_, rfl, ?_, ?_⟩
    · constructor
      · dsimp only
        rw [hnew]
        omega
      · dsimp only [getPage]
        rw [hfreed, if_neg (by omega), if_neg (by omega)]
      · exact h.links
      · exact h.zoneStat
      · exact h.vmStat
    · dsimp only
      rw [hnew]
      exact hroom
  | getUnlessZero =>
    have hzero : w.page.count = 0 := hmeets
    refine ⟨w, ?_, h, hsmall⟩
    rw [perform, getPageUnlessZero_eq, Option.map_some, hzero]
    rfl
  | put =>
    have hheld : w.puts < 1 + w.gets := hlegal
    have hmore : w.page.count ≠ 1 := hmeets
    have hnew : atomicSubReturn 1 w.page.count = w.page.count - 1 :=
      toSigned_small (by omega) (by omega)
    have hput : putPage w.page = some { w.page with count := w.page.count - 1 } := by
      rw [putPage, hnew]
      dsimp only
      rw [if_neg (by omega)]
    refine ⟨_, by rw [perform, hput, Option.map_some], ?_, ?_⟩
    · constructor
      · dsimp only
        omega
      · dsimp only
        rw [hfreed, if_neg (by omega), if_neg (by omega)]
      · exact h.links
      · exact h.zoneStat
      · exact h.vmStat
    · dsimp only
      omega

/-- The release of a page changes a statistic of its zone. -/
theorem putSinglePage_zoneStat {u v : PageState} (h : putSinglePage u = some v) :
    v.zoneStat ≠ u.zoneStat := by
  rw [putSinglePage, delPageFromLru, Option.map_map, Option.map_eq_some_iff] at h
  obtain ⟨links, -, rfl⟩ := h
  intro heq
  have hitem : Function.update u.zoneStat nrUnevictable
      (toSigned 32 (u.zoneStat nrUnevictable + -hpageNrPages)) nrUnevictable =
      u.zoneStat nrUnevictable := congrFun heq nrUnevictable
  rw [Function.update_self] at hitem
  have hmod : toSigned 32 (u.zoneStat nrUnevictable + -hpageNrPages) % ((2 ^ 32 : ℕ) : ℤ) =
      u.zoneStat nrUnevictable % ((2 ^ 32 : ℕ) : ℤ) := by rw [hitem]
  rw [toSigned, Int.bmod_emod, hpageNrPages] at hmod
  omega

/-- An operation that reaches a defect leaves the references uncounted. -/
theorem Counted.lose (h : Counted s w) (hsmall : w.page.count < 2 ^ 31) {op : RefOp}
    (hlegal : Legal w op) (hmeets : ¬ Meets w op) (ht : perform w op = some t) : ¬ Counted s t := by
  intro hbad
  have hcount := h.count
  have hafter := hbad.count
  cases op with
  | get =>
    have hroom : ¬ w.page.count + 1 < 2 ^ 31 := hmeets
    rw [perform, Option.some.injEq] at ht
    subst ht
    have hlt : (getPage w.page).count < 2 ^ 31 := by
      have hlt := Int.bmod_lt (x := w.page.count + 1) (m := 2 ^ 32) (by decide)
      exact hlt
    dsimp only at hafter
    omega
  | getUnlessZero =>
    have hne : w.page.count ≠ 0 := hmeets
    rw [perform, getPageUnlessZero_eq, Option.map_some, Option.some.injEq] at ht
    subst ht
    have hgets : (if decide (w.page.count ≠ 0) then w.gets + 1 else w.gets) = w.gets + 1 :=
      if_pos (decide_eq_true hne)
    dsimp only at hafter
    rw [hgets] at hafter
    omega
  | put =>
    have hlast : w.page.count = 1 := not_not.mp hmeets
    have hnew : atomicSubReturn 1 w.page.count = 0 := by
      rw [hlast]
      decide
    rw [perform, putPage, hnew, Option.map_eq_some_iff] at ht
    simp only [if_true] at ht
    obtain ⟨page, hpage, rfl⟩ := ht
    have hstat := putSinglePage_zoneStat hpage
    exact hstat (hbad.zoneStat.trans h.zoneStat.symm)

/-- References are counted in every state of a run exactly when no operation of it reaches a
defect; `get_page_unless_zero` ends, and answers whether the count is not zero. -/
theorem pageRefs_counted_iff (hinit : HandedOut w) (hlegal : Admissible perform Legal w ops) :
    (Admissible perform Meets w ops ↔ ∀ before after, ops = before ++ after →
      ∃ t, exec perform w before = some t ∧ Counted w.page t) ∧
      ∀ s fuel, ∃ answer t, getPageUnlessZero s (fuel + 2) = some (answer, t) ∧
        (answer = true ↔ s.count ≠ 0) := by
  obtain ⟨hcount, hfreed, hgets, hputs⟩ := hinit
  have hstart : Counted w.page w := by
    constructor
    · rw [hcount, hgets, hputs]
      rfl
    · rw [hfreed, hgets, hputs]
      rfl
    · rfl
    · rfl
    · rfl
  refine ⟨?_, fun s fuel => ⟨_, s, getPageUnlessZero_eq s fuel, decide_eq_true_iff⟩⟩
  exact @admissible_iff_along _ _ _ _ (fun t => Counted w.page t ∧ t.page.count < 2 ^ 31) _ _
    (fun t hi => hi.1) (fun t op hi hok hm => hi.1.step hi.2 hok hm)
    (fun t op u hi hok hm ht => hi.1.lose hi.2 hok hm ht) _ _ ⟨hstart, by omega⟩ hlegal

/-- A page with one reference that is on no list: its links are poisoned. -/
def freshPage : RefWorld :=
  ⟨⟨1, 64, fun _ => ⟨listPoison1, listPoison2⟩, fun _ => 0, fun _ => 0, 0⟩, 0, 0⟩

/-- A reference is taken and dropped. -/
theorem pageRefs_counted_iff_pair :
    ∃ t, exec perform freshPage [.get, .put] = some t ∧ Counted freshPage.page t :=
  (@pageRefs_counted_iff freshPage [.get, .put] ⟨rfl, rfl, rfl, rfl⟩ (by decide)).1.mp (by decide)
    [.get, .put] [] rfl

/-- `get_page_unless_zero` answers true and takes no reference, and the last put follows the links of
a page that is on no list. -/
theorem unlessZero_lost :
    (getPageUnlessZero freshPage.page 2).map (fun r => (r.1, r.2.count)) = some (true, 1) ∧
      Admissible perform Legal freshPage [.getUnlessZero, .put] ∧
      (exec perform freshPage [.getUnlessZero]).map (fun t => (t.page.count, t.gets, t.puts)) =
        some (1, 1, 0) ∧
      (perform freshPage .put).isNone ∧
      (putPage ⟨1, 64, fun a => ⟨a, a⟩, fun _ => 0, fun _ => 0, 0⟩).map
        (fun t => t.zoneStat nrUnevictable) = some (-1) := by
  refine ⟨?_, ?_, ?_, ?_, ?_⟩ <;> decide +kernel

end BiscuitOS.PageRefs
