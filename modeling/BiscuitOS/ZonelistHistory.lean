import BiscuitOS.TransitionRun
import BiscuitOS.ZonelistPasses

/-!
# Histories of allocations over the zones

Blocks are handed out by `alloc_pages` from any zone, their descriptors are
used, and they are given back by `__free_pages`. Blocks that are out at the
same time never overlap. A request gets a block, or is refused, or never ends,
and the flags, the order and the task say which of the last two it is when no
zone that it may use has a block.
-/

namespace BiscuitOS.ZonelistHistory

open MachineWord LoopRun TransitionRun PageModel BuddyModel DyadicBlock ListTable PcpModel
  PcpInvariant PcpHistory BootPageset ZoneFrames ZonelistModel ZonelistPasses
open BuddyInvariant hiding freePages
open BuddyHistory (Untouched)

variable {r : Request} {task : CurrentTask} {progress allocFlags page order i j : ℕ} {s u m : Zones}
  {pageState : ℕ → ℤ} {limits : ℕ → ZoneLimits}

/-- The slow path may do without watermarks. -/
def highPriority (task : CurrentTask) (gfpMask : ℕ) : Bool :=
  !has gfpMask gfpNomemalloc && (task.memalloc || task.memdie)

/-- A flag of its own bit. -/
theorem and_bit (x k : ℕ) : x &&& 2 ^ k = 0 ∨ x &&& 2 ^ k = 2 ^ k := by
  rw [Nat.and_two_pow]
  cases x.testBit k with
  | false => exact .inl (Nat.zero_mul _)
  | true => exact .inr (Nat.one_mul _)

/-- `ALLOC_NO_WATERMARKS` of `gfp_to_alloc_flags`. -/
theorem gfpToAllocFlags_high (task : CurrentTask) (gfpMask : ℕ) :
    gfpToAllocFlags task gfpMask &&& allocNoWatermarks ≠ 0 ↔ highPriority task gfpMask = true := by
  have hbit : gfpMask &&& gfpHigh = 0 ∨ gfpMask &&& gfpHigh = 32 := and_bit gfpMask 5
  rw [gfpToAllocFlags, highPriority]
  generalize gfpMask &&& gfpHigh = high at hbit
  generalize has gfpMask gfpWait = wait
  generalize has gfpMask gfpNomemalloc = none
  obtain ⟨realtime, memalloc, memdie⟩ := task
  rcases hbit with rfl | rfl <;> cases wait <;> cases none <;> cases realtime <;>
    cases memalloc <;> cases memdie <;> decide

/-- The flags of the first pass of the slow path. -/
def watchedFlags (task : CurrentTask) (gfpMask : ℕ) : ℕ :=
  gfpToAllocFlags task gfpMask ^^^ (gfpToAllocFlags task gfpMask &&& allocNoWatermarks)

/-- The pages that were reclaimed after some rounds. -/
def reclaimed (progress n : ℕ) : ℕ := wrap 64 (n * progress)

/-- A request for which no zone has a block is refused. -/
def GivesUp (task : CurrentTask) (r : Request) (progress : ℕ) : Prop :=
  maxOrder ≤ r.order ∨
    (highPriority task r.gfpMask = true ∧ has r.gfpMask gfpNofail = false) ∨
    (highPriority task r.gfpMask = false ∧
      (has r.gfpMask gfpWait = false ∨ task.memalloc = true ∨
        (task.memdie = true ∧ has r.gfpMask gfpNofail = false) ∨
        ∃ n, shouldAllocRetry r.gfpMask r.order (reclaimed progress (n + 1)) = false))

variable (allocFlags pageState) in
/-- A pass over zones with nothing on their lists changes nothing. -/
theorem tryZones_exhausted (ht : r.migratetype < migratePcptypes) (l : List ℕ) :
    ∀ {s : Zones}, (∀ i ∈ l, Exhausted (view s i) r.order r.migratetype) →
    ∃ u, tryZones r allocFlags pageState l s = some (none, u) ∧ ∀ j, view u j = view s j := by
  induction l with
  | nil => exact fun {s} _ => ⟨s, rfl, fun _ => rfl⟩
  | cons i rest ih =>
    intro s h
    have hrest : ∀ j ∈ rest, Exhausted (view s j) r.order r.migratetype := fun j hj =>
      h j (List.mem_cons_of_mem i hj)
    rw [tryZones]
    split
    · rw [(h i List.mem_cons_self).bufferedRmqueue ht]
      have hsame : ∀ j, view (settle s i (view s i)) j = view s j := by
        intro j
        by_cases hj : j = i
        · rw [hj, view_settle]
          rfl
        · rw [view_settle_other s hj]
          rfl
      obtain ⟨u, hu, hview⟩ := ih (s := settle s i (view s i)) fun j hj => by
        rw [hsame]
        exact hrest j hj
      exact ⟨u, hu, fun j => (hview j).trans (hsame j)⟩
    · exact ih hrest

/-- How a request may end, by the fuel of its loops: with a block, or refused, or not at all. -/
def Outcome (gives : ℕ → Option (Option ℕ × Zones)) (block : ℕ → Zones → Prop)
    (none : Zones → Prop) (givesUp : Prop) : Prop :=
  (∃ fuel page u, gives fuel = some (some page, u) ∧ block page u) ∨
    (∃ fuel u, gives fuel = some (Option.none, u) ∧ none u ∧ givesUp) ∨
    ((∀ fuel, gives fuel = Option.none) ∧ (∃ u, none u) ∧ ¬givesUp)

/-- A request ends as its passes do; without a block it gives up, or goes on forever. -/
def Follows (gives : ℕ → Option (Option ℕ × Zones)) (q : Option ℕ × Zones) (givesUp : Prop) : Prop :=
  match q with
  | (some page, u) => ∃ fuel, gives fuel = some (some page, u)
  | (none, u) => (∃ fuel, gives fuel = some (none, u)) ∧ givesUp ∨
      (∀ fuel, gives fuel = none) ∧ ¬givesUp

/-- A request whose passes give nothing. -/
theorem Follows.nothing {gives : ℕ → Option (Option ℕ × Zones)} {givesUp : Prop} {u : Zones}
    {block : ℕ → Zones → Prop} {none : Zones → Prop} (h : Follows gives (Option.none, u) givesUp)
    (hu : none u) : Outcome gives block none givesUp := by
  rcases h with ⟨⟨fuel, hgives⟩, hup⟩ | ⟨hgives, hup⟩
  · exact .inr (.inl ⟨fuel, u, hgives, hu, hup⟩)
  · exact .inr (.inr ⟨hgives, ⟨u, hu⟩, hup⟩)

/-- The pass of the slow path without watermarks. -/
def highPass (r : Request) : Pass := ⟨r, allocNoWatermarks, fun _ => 0⟩

/-- The passes of the slow path behind its first one. -/
def lastPasses (task : CurrentTask) (r : Request) : List Pass :=
  if highPriority task r.gfpMask then [highPass r] else []

/-- The passes of the slow path. -/
def slowPasses (x : Surroundings) (r : Request) : List Pass :=
  if maxOrder ≤ r.order then []
  else ⟨r, watchedFlags x.task r.gfpMask, x.second⟩ :: lastPasses x.task r

/-- The passes of a request: with the low watermark, and those of the slow path. -/
def passes (x : Surroundings) (r : Request) : List Pass :=
  ⟨{ r with gfpMask := r.gfpMask ||| gfpHardwall }, allocWmarkLow ||| allocCpuset, x.first⟩ ::
    slowPasses x r

/-- All of them are for the request. -/
theorem passes_for (x : Surroundings) (r : Request) : ∀ p ∈ passes x r, p.For r := by
  intro p hp
  rw [passes, slowPasses, lastPasses] at hp
  rcases List.mem_cons.mp hp with rfl | hp
  · exact ⟨rfl, rfl, rfl⟩
  · split at hp
    · cases hp
    · rcases List.mem_cons.mp hp with rfl | hp
      · exact ⟨rfl, rfl, rfl⟩
      · split at hp
        · rw [List.mem_singleton] at hp
          rw [hp]
          exact ⟨rfl, rfl, rfl⟩
        · cases hp

/-- The count of reclaimed pages after one more round. -/
theorem reclaimed_succ (progress n : ℕ) :
    wrap 64 (reclaimed progress n + progress) = reclaimed progress (n + 1) := by
  rw [reclaimed, reclaimed, wrap, wrap, wrap, Nat.mod_add_mod, Nat.succ_mul]

/-- The slow path stops for the flags of the request and the task. -/
def stops (task : CurrentTask) (gfpMask : ℕ) : Bool :=
  !has gfpMask gfpWait || task.memalloc || (task.memdie && !has gfpMask gfpNofail)

/-- A round that stops. -/
theorem afterHighPriority_stops (h : stops task r.gfpMask = true) (n : ℕ) :
    afterHighPriority task r progress s n = .inr (some (none, s)) := by
  rw [afterHighPriority, if_pos]
  rw [stops, Bool.or_eq_true, Bool.or_eq_true, Bool.and_eq_true] at h
  rw [← or_assoc]
  exact h

/-- A round that does not stop. -/
theorem afterHighPriority_goes (h : stops task r.gfpMask = false) (n : ℕ) :
    afterHighPriority task r progress s (reclaimed progress n) =
      if shouldAllocRetry r.gfpMask r.order (reclaimed progress (n + 1)) then
        .inl (.rebalance, s, reclaimed progress (n + 1))
      else .inr (some (none, s)) := by
  rw [afterHighPriority, if_neg, reclaimed_succ]
  rw [← or_assoc]
  intro hc
  rw [stops, ← Bool.not_eq_true, Bool.or_eq_true, Bool.or_eq_true, Bool.and_eq_true] at h
  exact h hc

section Loop

variable (task r progress) (zonelist : List Zoneref)

/-- The rounds of the slow path without the high priority. -/
theorem slowLoop_low (hlow : allocFlags &&& allocNoWatermarks = 0) (u : Zones) :
    (∃ fuel, loop (slowStep task r zonelist allocFlags progress) fuel (.rebalance, u, 0) =
        some (some (none, u))) ∧
      (stops task r.gfpMask = true ∨
        ∃ n, shouldAllocRetry r.gfpMask r.order (reclaimed progress (n + 1)) = false) ∨
    (∀ fuel, loop (slowStep task r zonelist allocFlags progress) fuel (.rebalance, u, 0) = none) ∧
      stops task r.gfpMask = false ∧
      ∀ n, shouldAllocRetry r.gfpMask r.order (reclaimed progress (n + 1)) = true := by
  have hstep : ∀ n, slowStep task r zonelist allocFlags progress (.rebalance, u, n) =
      afterHighPriority task r progress u n := fun n => by
    rw [slowStep, if_neg (not_not.mpr hlow)]
  have hzero : (0 : ℕ) = reclaimed progress 0 := by rw [reclaimed, Nat.zero_mul]; rfl
  cases hstops : stops task r.gfpMask with
  | true =>
    exact .inl ⟨⟨1, loop_inr ((hstep 0).trans (afterHighPriority_stops hstops 0)) 0⟩, .inl rfl⟩
  | false =>
    have hround : ∀ n, slowStep task r zonelist allocFlags progress
        (.rebalance, u, reclaimed progress n) =
        if shouldAllocRetry r.gfpMask r.order (reclaimed progress (n + 1)) then
          .inl (.rebalance, u, reclaimed progress (n + 1))
        else .inr (some (none, u)) := fun n =>
      (hstep _).trans (afterHighPriority_goes hstops n)
    by_cases hend : ∃ n, shouldAllocRetry r.gfpMask r.order (reclaimed progress (n + 1)) = false
    · obtain ⟨n, hn, hbefore⟩ : ∃ n, shouldAllocRetry r.gfpMask r.order
          (reclaimed progress (n + 1)) = false ∧ ∀ k < n, shouldAllocRetry r.gfpMask r.order
          (reclaimed progress (k + 1)) = true :=
        ⟨Nat.find hend, Nat.find_spec hend, fun k hk => by simpa using Nat.find_min hend hk⟩
      have hrun : ∀ k ≤ n, ∀ fuel, loop (slowStep task r zonelist allocFlags progress) (fuel + k)
          (.rebalance, u, 0) = loop (slowStep task r zonelist allocFlags progress) fuel
          (.rebalance, u, reclaimed progress k) := by
        intro k
        induction k with
        | zero =>
          intro _ fuel
          rw [← hzero, Nat.add_zero]
        | succ k ih =>
          intro hk fuel
          have hnext := hround k
          rw [if_pos (hbefore k hk)] at hnext
          rw [Nat.add_comm k 1, ← Nat.add_assoc, ih (by omega) (fuel + 1), loop_inl hnext,
            Nat.add_comm 1 k]
      have hlast := hround n
      rw [hn, if_neg Bool.false_ne_true] at hlast
      exact .inl ⟨⟨1 + n, (hrun n (le_refl n) 1).trans (loop_inr hlast 0)⟩, .inr hend⟩
    · have hall : ∀ n, shouldAllocRetry r.gfpMask r.order (reclaimed progress (n + 1)) = true :=
        fun n => by simpa using fun hc => hend ⟨n, hc⟩
      refine .inr ⟨fun fuel => ?_, rfl, hall⟩
      refine loop_endless (fun q => ∃ n, q = (.rebalance, u, reclaimed progress n)) ?_ _
        ⟨0, by rw [← hzero]⟩ fuel
      rintro _ ⟨n, rfl⟩
      refine ⟨_, (hround n).trans ?_, n + 1, rfl⟩
      rw [if_pos (hall n)]

/-- A pass without watermarks that fails is repeated forever for a request that may not fail. -/
theorem slowLoop_nofail (ht : r.migratetype < migratePcptypes) (limits : ℕ → ZoneLimits)
    (hnofail : has r.gfpMask gfpNofail = true) (n : ℕ)
    (h : ∀ i ∈ candidates limits r.highZoneidx, Exhausted (view u i) r.order r.migratetype)
    (fuel : ℕ) : loop (slowStep task r (buildZonelists limits) allocFlags progress) fuel
      (.highPriority, u, n) = none := by
  refine loop_endless (fun q => q.1 = .highPriority ∧ ∀ i ∈ candidates limits r.highZoneidx,
    Exhausted (view q.2.1 i) r.order r.migratetype) ?_ _ ⟨rfl, h⟩ fuel
  rintro ⟨phase, m, k⟩ ⟨hphase, hempty⟩
  obtain rfl : phase = .highPriority := hphase
  obtain ⟨w, hw, hview⟩ := tryZones_exhausted allocNoWatermarks (fun _ => 0) ht _ hempty
  refine ⟨(.highPriority, w, k), ?_, rfl, fun i hi => ?_⟩
  · rw [slowStep, getPageFromFreelist_eq, hw]
    exact if_pos hnofail
  · rw [hview]
    exact hempty i hi

end Loop

/-- The flags and the task for which the slow path stops. -/
theorem stops_iff (task : CurrentTask) (gfpMask : ℕ) : stops task gfpMask = true ↔
    has gfpMask gfpWait = false ∨ task.memalloc = true ∨
      (task.memdie = true ∧ has gfpMask gfpNofail = false) := by
  rw [stops, Bool.or_eq_true, Bool.or_eq_true, Bool.and_eq_true, Bool.not_eq_true', or_assoc,
    Bool.not_eq_true']

/-- A task with high priority stops unless the request may not fail. -/
theorem stops_high (hhigh : highPriority task r.gfpMask = true)
    (hnofail : has r.gfpMask gfpNofail = false) : stops task r.gfpMask = true := by
  rw [highPriority, Bool.and_eq_true, Bool.or_eq_true] at hhigh
  rw [stops_iff]
  exact .inr (hhigh.2.imp id fun hdie => ⟨hdie, hnofail⟩)

/-- Without watermarks every zone may be tried. -/
theorem worthTrying_high (s : Zones) (i : ℕ) :
    worthTrying r allocNoWatermarks pageState s i = true :=
  decide_eq_true (.inl (by decide))

/-- The slow path after its first pass, which failed, of a task without the high priority. -/
theorem slowLoop_low_follows (horder : r.order < maxOrder)
    (hhigh : highPriority task r.gfpMask = false) (zonelist : List Zoneref) (u : Zones) :
    Follows (fun fuel => (loop (slowStep task r zonelist (gfpToAllocFlags task r.gfpMask) progress)
      fuel (.rebalance, u, 0)).join) (none, u) (GivesUp task r progress) := by
  have hflags : gfpToAllocFlags task r.gfpMask &&& allocNoWatermarks = 0 := by
    by_contra hne
    rw [(gfpToAllocFlags_high task r.gfpMask).mp hne] at hhigh
    cases hhigh
  rcases slowLoop_low r task progress zonelist hflags u with
    ⟨⟨fuel, hrun⟩, hwhy⟩ | ⟨hrun, hstops, hretry⟩
  · refine .inl ⟨⟨fuel, by simp only [hrun, Option.join_some]⟩, .inr (.inr ⟨hhigh, ?_⟩)⟩
    rcases hwhy with hstops | hend
    · rcases (stops_iff task r.gfpMask).mp hstops with hwait | halloc | hdie
      · exact .inl hwait
      · exact .inr (.inl halloc)
      · exact .inr (.inr (.inl hdie))
    · exact .inr (.inr (.inr hend))
  · refine .inr ⟨fun fuel => by simp only [hrun, Option.join_none], ?_⟩
    rintro (hmax | ⟨hhigh', -⟩ | ⟨-, hwhy⟩)
    · omega
    · exact absurd (hhigh.symm.trans hhigh') Bool.false_ne_true
    · have hnot : ¬(has r.gfpMask gfpWait = false ∨ task.memalloc = true ∨
          (task.memdie = true ∧ has r.gfpMask gfpNofail = false)) := fun hc =>
        absurd (hstops.symm.trans ((stops_iff task r.gfpMask).mpr hc)) Bool.false_ne_true
      rcases hwhy with hwait | halloc | hdie | ⟨n, hn⟩
      · exact hnot (.inl hwait)
      · exact hnot (.inr (.inl halloc))
      · exact hnot (.inr (.inr hdie))
      · exact absurd (hn.symm.trans (hretry n)) Bool.false_ne_true

/-- The slow path after its first pass, which failed, of a task with the high priority. -/
theorem slowLoop_high_follows (ht : r.migratetype < migratePcptypes) (horder : r.order < maxOrder)
    (hhigh : highPriority task r.gfpMask = true) (hu : ZonesInv u) (limits : ℕ → ZoneLimits)
    {q : Option ℕ × Zones} (hrun : getPageFromFreelist r allocNoWatermarks (fun _ => 0)
      (buildZonelists limits) u = some q) :
    Follows (fun fuel => (loop (slowStep task r (buildZonelists limits)
      (gfpToAllocFlags task r.gfpMask) progress) fuel (.rebalance, u, 0)).join) q
      (GivesUp task r progress) := by
  have hflags := (gfpToAllocFlags_high task r.gfpMask).mpr hhigh
  have hfirst : slowStep task r (buildZonelists limits) (gfpToAllocFlags task r.gfpMask) progress
      (.rebalance, u, 0) = .inl (.highPriority, u, 0) := by
    rw [slowStep, if_pos hflags]
  obtain ⟨p, w⟩ := q
  cases p with
  | some page =>
    have hsecond : slowStep task r (buildZonelists limits) (gfpToAllocFlags task r.gfpMask)
        progress (.highPriority, u, 0) = .inr (some (some page, w)) := by
      rw [slowStep, hrun]
    refine ⟨2, ?_⟩
    dsimp only
    rw [loop_inl hfirst, loop_inr hsecond, Option.join_some]
  | none =>
    obtain ⟨p, v, hrun', hpassed⟩ := getPageFromFreelist_passed allocNoWatermarks (fun _ => 0)
      hu ht limits
    obtain ⟨rfl, rfl⟩ := Prod.mk.inj (Option.some.inj (hrun'.symm.trans hrun))
    have hempty : ∀ i ∈ candidates limits r.highZoneidx,
        Exhausted (view v i) r.order r.migratetype := fun i hi =>
      hpassed.refused rfl i hi (worthTrying_high u i)
    cases hnofail : has r.gfpMask gfpNofail with
    | false =>
      have hsecond : slowStep task r (buildZonelists limits) (gfpToAllocFlags task r.gfpMask)
          progress (.highPriority, u, 0) = .inr (some (none, v)) := by
        rw [slowStep, hrun]
        dsimp only
        rw [hnofail, if_neg Bool.false_ne_true]
        exact afterHighPriority_stops (stops_high hhigh hnofail) 0
      refine .inl ⟨⟨2, ?_⟩, .inr (.inl ⟨hhigh, hnofail⟩)⟩
      dsimp only
      rw [loop_inl hfirst, loop_inr hsecond, Option.join_some]
    | true =>
      have hsecond : slowStep task r (buildZonelists limits) (gfpToAllocFlags task r.gfpMask)
          progress (.highPriority, u, 0) = .inl (.highPriority, v, 0) := by
        rw [slowStep, hrun]
        dsimp only
        rw [hnofail, if_pos rfl]
      refine .inr ⟨fun fuel => ?_, ?_⟩
      · dsimp only
        match fuel with
        | 0 => rfl
        | 1 => rw [loop_inl hfirst]; rfl
        | fuel + 2 =>
          rw [loop_inl hfirst, loop_inl hsecond,
            slowLoop_nofail r task progress ht limits hnofail 0 hempty fuel, Option.join_none]
      · rintro (hmax | ⟨-, hfail⟩ | ⟨hlow, -⟩)
        · omega
        · exact absurd (hfail.symm.trans hnofail) Bool.false_ne_true
        · exact absurd (hlow.symm.trans hhigh) Bool.false_ne_true

/-- A single pass. -/
theorem attempts_singleton (limits : ℕ → ZoneLimits) (p : Pass) (s : Zones) :
    attempts limits [p] s =
      getPageFromFreelist p.request p.allocFlags p.pageState (buildZonelists limits) s := by
  rw [attempts]
  split
  · next h => exact h.symm
  · next h => exact h.symm
  · next h => exact h.symm

/-- The slow path gives what its passes give. -/
theorem slowpath_follows (x : Surroundings) (ht : r.migratetype < migratePcptypes)
    (hu : ZonesInv u) (limits : ℕ → ZoneLimits) {q : Option ℕ × Zones}
    (hrun : attempts limits (slowPasses x r) u = some q) :
    Follows (fun fuel => allocPagesSlowpath fuel x.task r (buildZonelists limits) x.second x.progress
      u) q (GivesUp x.task r x.progress) := by
  by_cases horder : maxOrder ≤ r.order
  · rw [slowPasses, if_pos horder] at hrun
    rw [← Option.some.inj hrun]
    refine .inl ⟨⟨0, ?_⟩, .inl horder⟩
    dsimp only
    rw [allocPagesSlowpath, if_pos horder]
  · obtain ⟨p, w, hfirst, hpassed⟩ := getPageFromFreelist_passed (watchedFlags x.task r.gfpMask)
      x.second hu ht limits
    rw [slowPasses, if_neg horder, attempts] at hrun
    dsimp only at hrun
    rw [hfirst] at hrun
    rw [watchedFlags] at hfirst
    cases p with
    | some page =>
      rw [← Option.some.inj hrun]
      refine ⟨0, ?_⟩
      dsimp only
      rw [allocPagesSlowpath, if_neg horder]
      dsimp only
      rw [hfirst]
    | none =>
      dsimp only at hrun
      have hloop : (fun fuel => allocPagesSlowpath fuel x.task r (buildZonelists limits) x.second
          x.progress u) = fun fuel => (loop (slowStep x.task r (buildZonelists limits)
            (gfpToAllocFlags x.task r.gfpMask) x.progress) fuel (.rebalance, w, 0)).join := by
        funext fuel
        rw [allocPagesSlowpath, if_neg horder]
        dsimp only
        rw [hfirst]
      rw [hloop]
      cases hhigh : highPriority x.task r.gfpMask with
      | false =>
        rw [lastPasses, hhigh, if_neg Bool.false_ne_true] at hrun
        rw [← Option.some.inj hrun]
        exact slowLoop_low_follows (Nat.lt_of_not_le horder) hhigh _ w
      | true =>
        rw [lastPasses, hhigh, if_pos rfl, attempts_singleton] at hrun
        exact slowLoop_high_follows ht (Nat.lt_of_not_le horder) hhigh hpassed.inv limits hrun

/-- A request as `__alloc_pages_nodemask` makes it. -/
def request (s : Zones) (allowedMask gfpMask order : ℕ) : Request where
  gfpMask := gfpMask &&& allowedMask
  order := order
  highZoneidx := gfpZone gfpMask
  classzoneIdx := ((candidates s.limits (gfpZone gfpMask)).head?).getD 0
  migratetype := allocflagsToMigratetype s.mobilityDisabled gfpMask

/-- A request that does not ask for both kinds of mobility is for a type with a list. -/
theorem migratetype_lt {gfpMask : ℕ} (h : ¬(has gfpMask gfpMovable ∧ has gfpMask gfpReclaimable))
    (b : Bool) : allocflagsToMigratetype b gfpMask < migratePcptypes := by
  rw [allocflagsToMigratetype]
  generalize has gfpMask gfpMovable = movable at h
  generalize has gfpMask gfpReclaimable = reclaimable at h
  cases b <;> cases movable <;> cases reclaimable <;> revert h <;> decide

/-- `alloc_pages` gives what its passes give. -/
theorem allocPages_follows (h : ZonesInv s) (allowedMask : ℕ) (x : Surroundings) {gfpMask : ℕ}
    (order : ℕ) (hgfp : ¬(has gfpMask gfpMovable ∧ has gfpMask gfpReclaimable))
    (hsome : candidates s.limits (gfpZone gfpMask) ≠ []) {q : Option ℕ × Zones}
    (hrun : attempts s.limits (passes x (request s allowedMask gfpMask order)) s = some q) :
    Follows (fun fuel => allocPagesNodemask fuel allowedMask x gfpMask order s) q
      (GivesUp x.task (request s allowedMask gfpMask order) x.progress) := by
  have ht := migratetype_lt hgfp s.mobilityDisabled
  obtain ⟨c, hc⟩ : ∃ c, (candidates s.limits (gfpZone gfpMask)).head? = some c :=
    ⟨_, List.head?_eq_some_head hsome⟩
  have hrequest : request s allowedMask gfpMask order = ⟨gfpMask &&& allowedMask, order,
      gfpZone gfpMask, c, allocflagsToMigratetype s.mobilityDisabled gfpMask⟩ := by
    rw [request, hc, Option.getD_some]
  rw [hrequest] at hrun ⊢
  obtain ⟨p, u, hfirst, hpassed⟩ := getPageFromFreelist_passed (allocWmarkLow ||| allocCpuset)
    x.first h (r := ⟨gfpMask &&& allowedMask ||| gfpHardwall, order, gfpZone gfpMask, c,
      allocflagsToMigratetype s.mobilityDisabled gfpMask⟩) ht s.limits
  rw [passes, attempts] at hrun
  dsimp only at hrun
  rw [hfirst] at hrun
  cases p with
  | some page =>
    rw [← Option.some.inj hrun]
    refine ⟨0, ?_⟩
    simp only [allocPagesNodemask]
    rw [if_neg (buildZonelists_head s.limits hsome), firstZonesZonelist_eq, hc]
    dsimp only
    rw [hfirst]
  | none =>
    dsimp only at hrun
    have hsame : (fun fuel => allocPagesNodemask fuel allowedMask x gfpMask order s) =
        fun fuel => allocPagesSlowpath fuel x.task ⟨gfpMask &&& allowedMask, order,
          gfpZone gfpMask, c, allocflagsToMigratetype s.mobilityDisabled gfpMask⟩
          (buildZonelists s.limits) x.second x.progress u := by
      funext fuel
      simp only [allocPagesNodemask]
      rw [if_neg (buildZonelists_head s.limits hsome), firstZonesZonelist_eq, hc]
      dsimp only
      rw [hfirst]
    rw [hsame]
    exact slowpath_follows x ht hpassed.inv s.limits hrun

/-- How `alloc_pages` ends. -/
theorem allocPages_outcome (h : ZonesInv s) (allowedMask : ℕ) (x : Surroundings) {gfpMask : ℕ}
    (order : ℕ) (hgfp : ¬(has gfpMask gfpMovable ∧ has gfpMask gfpReclaimable)) :
    Outcome (fun fuel => allocPagesNodemask fuel allowedMask x gfpMask order s)
      (fun page u => Served (request s allowedMask gfpMask order)
        (passes x (request s allowedMask gfpMask order)) s u page)
      (Nothing (request s allowedMask gfpMask order)
        (passes x (request s allowedMask gfpMask order)) s)
      (candidates s.limits (gfpZone gfpMask) = [] ∨
        GivesUp x.task (request s allowedMask gfpMask order) x.progress) := by
  have hattempts := attempts_outcome (r := request s allowedMask gfpMask order)
    (migratetype_lt hgfp s.mobilityDisabled) _ (passes_for x _) h
  by_cases hnone : candidates s.limits (gfpZone gfpMask) = []
  · have hgives : ∀ fuel, allocPagesNodemask fuel allowedMask x gfpMask order s =
        some (none, s) := by
      intro fuel
      simp only [allocPagesNodemask]
      split
      · rfl
      · rw [firstZonesZonelist_eq, hnone]
        rfl
    rcases hattempts with ⟨u, hnothing⟩ | ⟨page, u, hserved⟩
    · have hsame := hnothing.reached.symm.trans (attempts_unpopulated _ (passes_for x _) hnone)
      obtain rfl : u = s := (Prod.mk.inj (Option.some.inj hsame)).2
      exact .inr (.inl ⟨0, u, hgives 0, hnothing, .inl hnone⟩)
    · obtain ⟨-, -, -, -, -, -, i, hi, -⟩ := hserved.block
      have hin : i ∈ candidates s.limits (gfpZone gfpMask) := hi
      rw [hnone] at hin
      cases hin
  · rcases hattempts with ⟨u, hnothing⟩ | ⟨page, u, hserved⟩
    · have hends := allocPages_follows h allowedMask x order hgfp hnone hnothing.reached
      rcases hends.nothing hnothing with hblock | ⟨fuel, w, hgives, hw, hup⟩ | ⟨hgives, hw, hup⟩
      · exact .inl hblock
      · exact .inr (.inl ⟨fuel, w, hgives, hw, .inr hup⟩)
      · exact .inr (.inr ⟨hgives, hw, fun hc => hc.elim hnone hup⟩)
    · obtain ⟨fuel, hgives⟩ := allocPages_follows h allowedMask x order hgfp hnone hserved.reached
      exact .inl ⟨fuel, page, u, hgives, hserved⟩

/-- More fuel does not change what `alloc_pages` gives. -/
theorem allocPages_mono {allowedMask gfpMask fuel more : ℕ} {x : Surroundings}
    {q : Option ℕ × Zones} (hle : fuel ≤ more)
    (hrun : allocPagesNodemask fuel allowedMask x gfpMask order s = some q) :
    allocPagesNodemask more allowedMask x gfpMask order s = some q := by
  have hslow : ∀ {r limits w}, allocPagesSlowpath fuel x.task r (buildZonelists limits) x.second
      x.progress w = some q → allocPagesSlowpath more x.task r (buildZonelists limits) x.second
      x.progress w = some q := by
    intro r limits w h
    simp only [allocPagesSlowpath] at h ⊢
    split at h
    · next horder => rwa [if_pos horder]
    · next horder =>
      rw [if_neg horder]
      split at h
      · cases h
      · exact h
      · rw [Option.join_eq_some_iff] at h ⊢
        exact loop_mono h hle
  simp only [allocPagesNodemask] at hrun ⊢
  split at hrun
  · next hnone => rwa [if_pos hnone]
  · next hsome =>
    rw [if_neg hsome]
    split at hrun
    · exact hrun
    · split at hrun
      · cases hrun
      · exact hrun
      · exact hslow hrun

/-- What `alloc_pages` gave is a block of the request, or nothing when no zone had one. -/
theorem allocPages_gives (h : ZonesInv s) {allowedMask gfpMask fuel : ℕ} {x : Surroundings}
    (hgfp : ¬(has gfpMask gfpMovable ∧ has gfpMask gfpReclaimable)) {p : Option ℕ}
    (hrun : allocPagesNodemask fuel allowedMask x gfpMask order s = some (p, u)) :
    ZonesInv u ∧ ZonesFramed ∅ s u ∧
      ∀ page ∈ p, Served (request s allowedMask gfpMask order)
        (passes x (request s allowedMask gfpMask order)) s u page := by
  rcases allocPages_outcome h allowedMask x order hgfp with
    ⟨other, page, w, hgives, hserved⟩ | ⟨other, w, hgives, hnothing, -⟩ | ⟨hgives, -, -⟩
  · have hboth := (allocPages_mono (Nat.le_max_right fuel other) hgives).symm.trans
      (allocPages_mono (Nat.le_max_left fuel other) hrun)
    rw [Option.some_inj, Prod.mk.injEq] at hboth
    obtain ⟨rfl, rfl⟩ := hboth
    refine ⟨hserved.inv, hserved.framed, fun q hq => ?_⟩
    rw [← Option.some.inj hq]
    exact hserved
  · have hboth := (allocPages_mono (Nat.le_max_right fuel other) hgives).symm.trans
      (allocPages_mono (Nat.le_max_left fuel other) hrun)
    rw [Option.some_inj, Prod.mk.injEq] at hboth
    obtain ⟨rfl, rfl⟩ := hboth
    exact ⟨hnothing.inv, hnothing.framed, fun q hq => by cases hq⟩
  · have hnone : allocPagesNodemask fuel allowedMask x gfpMask order s = none := hgives fuel
    rw [hnone] at hrun
    cases hrun

/-- The node, and the blocks that are out. -/
structure World where
  /-- The node. -/
  node : Zones
  /-- First page and order of each block that is out. -/
  live : List (ℕ × ℕ)

/-- What the page allocator is asked to do, and what the owners of pages do. -/
inductive Op
  /-- `alloc_pages`, with `gfp_allowed_mask` and fuel for its loops. -/
  | alloc (fuel allowedMask : ℕ) (x : Surroundings) (gfpMask order : ℕ)
  /-- `__free_pages`. -/
  | free (page order : ℕ)
  /-- The owner of a page changes its descriptor. -/
  | use (page : ℕ) (descriptor : Page)

/-- Perform an operation; no state remains when it does not end. -/
def perform (w : World) : Op → Option World
  | .alloc fuel allowedMask x gfpMask order =>
    (allocPagesNodemask fuel allowedMask x gfpMask order w.node).map fun q =>
      ⟨q.2, (q.1.toList.map fun page => (page, order)) ++ w.live⟩
  | .free page order =>
    (ZonelistModel.freePages page order w.node).map fun u =>
      ⟨u, if (w.node.pages page).count - 1 = 0 then w.live.erase (page, order) else w.live⟩
  | .use page descriptor =>
    some { w with node := { w.node with pages := setPage w.node.pages page descriptor } }

/-- Requests do not ask for both kinds of mobility, blocks are freed while they are out, and owners
of pages neither mark them free nor move them to another zone. -/
def Legal (w : World) : Op → Prop
  | .alloc _ _ _ gfpMask _ => ¬(has gfpMask gfpMovable ∧ has gfpMask gfpReclaimable)
  | .free page order => (page, order) ∈ w.live
  | .use page descriptor => (∃ b ∈ w.live, page ∈ span b.1 b.2) ∧
      pageZoneId descriptor = pageZoneId (w.node.pages page) ∧ pageBuddy descriptor = false

/-- Two blocks share no page. -/
def Apart (b c : ℕ × ℕ) : Prop := Disjoint (span b.1 b.2) (span c.1 c.2)

/-- The zones are consistent, and the blocks that are out are aligned, on no list, and apart. -/
structure Kept (w : World) : Prop where
  /-- The zones. -/
  node : ZonesInv w.node
  /-- Orders and alignment of the blocks. -/
  aligned : ∀ b ∈ w.live, b.2 < maxOrder ∧ 2 ^ b.2 ∣ b.1
  /-- Their pages are of one zone, and on no list. -/
  held : ∀ b ∈ w.live, ∃ i < maxNrZones, span b.1 b.2 ⊆ Held i (view w.node i)
  /-- They do not overlap. -/
  apart : w.live.Pairwise Apart

/-- The node when bootmem hands its memory over: no page is free yet, each zone has a pageset as
it was set up, and the blocks of the boot are pages of the zones. -/
structure Booted (s : Zones) (boot : List (ℕ × ℕ)) : Prop where
  /-- No page is free. -/
  untouched : ∀ i < maxNrZones, Untouched i (view s i).zone
  /-- Pageblocks have types. -/
  types : ∀ i < maxNrZones, ∀ b, (s.zones i).blockType b < migrateTypes
  /-- No page is counted. -/
  nrFreePages : ∀ i < maxNrZones, (s.zones i).nrFreePages = 0
  /-- The pagesets are set up. -/
  pagesets : ∀ i < maxNrZones, SetUpWithin (s.pagesets i)
  /-- The zones are apart. -/
  spans : ∀ i < maxNrZones, ∀ j < maxNrZones, i ≠ j →
    Disjoint (zoneSpan (view s i).zone) (zoneSpan (view s j).zone)
  /-- The blocks of the boot. -/
  aligned : ∀ b ∈ boot, b.2 < maxOrder ∧ 2 ^ b.2 ∣ b.1
  /-- Each is of one zone. -/
  inside : ∀ b ∈ boot, ∃ i < maxNrZones, span b.1 b.2 ⊆ zonePages i (view s i).zone
  /-- They do not overlap. -/
  apart : boot.Pairwise Apart

/-- The books are right when the boot hands its memory over. -/
theorem Booted.kept {boot : List (ℕ × ℕ)} (h : Booted s boot) : Kept ⟨s, boot⟩ where
  node := ⟨fun i hi => initial_inv (h.untouched i hi) (h.types i hi) (h.nrFreePages i hi)
    (h.pagesets i hi), h.spans⟩
  aligned := h.aligned
  held b hb := by
    obtain ⟨i, hi, hin⟩ := h.inside b hb
    refine ⟨i, hi, fun q hq => ⟨hin hq, ?_⟩⟩
    rw [(h.untouched i hi).freeSet_eq, Set.empty_union]
    rintro ⟨t, ht⟩
    have hempty := congrFun (h.pagesets i hi).empty.2 t
    have hin : q ∈ (s.pagesets i).lists t := ht
    rw [hempty] at hin
    exact List.not_mem_nil hin
  apart := h.apart

variable {w w' : World} {b c : ℕ × ℕ}

/-- Being apart is symmetric. -/
theorem apart_symm (h : Apart b c) : Apart c b := Disjoint.symm h

/-- A page of a block that is out is on no list of its zone. -/
theorem Kept.onePage (h : Kept w) (hb : b ∈ w.live) {q : ℕ} (hq : q ∈ span b.1 b.2) :
    pageZoneId (w.node.pages q) < maxNrZones ∧
      q ∈ Held (pageZoneId (w.node.pages q)) (view w.node (pageZoneId (w.node.pages q))) := by
  obtain ⟨i, hi, hheld⟩ := h.held b hb
  have hzone : pageZoneId (w.node.pages q) = i := (hheld hq).1.2.2
  rw [hzone]
  exact ⟨hi, hheld hq⟩

/-- The zone of a block that is out is that of its first page. -/
theorem Kept.zone (h : Kept w) (hb : b ∈ w.live) : pageZoneId (w.node.pages b.1) < maxNrZones ∧
    span b.1 b.2 ⊆ Held (pageZoneId (w.node.pages b.1))
      (view w.node (pageZoneId (w.node.pages b.1))) := by
  obtain ⟨i, hi, hheld⟩ := h.held b hb
  have hzone : pageZoneId (w.node.pages b.1) = i := (hheld (mem_span_self b.1 b.2)).1.2.2
  rw [hzone]
  exact ⟨hi, hheld⟩

/-- Free pages are pages of the zone. -/
theorem ZonesInv.inside (h : ZonesInv s) (hi : i < maxNrZones) :
    freePagesOf (view s i) ⊆ zonePages i (view s i).zone :=
  Set.union_subset (h.zones i hi).lists.inside (h.zones i hi).inside

/-- A free block is apart from the blocks that are out. -/
theorem Kept.fresh (h : Kept w) (hi : i < maxNrZones) (hfree : FreeBlock (view w.node i) page order)
    (hc : c ∈ w.live) : Apart (page, order) c := by
  obtain ⟨k, hk, hheld⟩ := h.held c hc
  refine Set.disjoint_left.mpr fun q hq hq' => ?_
  have hin := hfree.free hq
  have hzone : pageZoneId (w.node.pages q) = i := (ZonesInv.inside h.node hi hin).2.2
  have hother : pageZoneId (w.node.pages q) = k := (hheld hq').1.2.2
  obtain rfl : i = k := hzone.symm.trans hother
  exact (hheld hq').2 hin

/-- A change of the node that frees none of the blocks that stay out. -/
theorem Kept.framed (h : Kept w) {u : Zones} {live : List (ℕ × ℕ)} {S : Set ℕ} (hu : ZonesInv u)
    (hframed : ZonesFramed S w.node u) (hlive : live.Sublist w.live)
    (hS : ∀ c ∈ live, Disjoint (span c.1 c.2) S) : Kept ⟨u, live⟩ where
  node := hu
  aligned c hc := h.aligned c (hlive.subset hc)
  held c hc := by
    obtain ⟨i, hi, hheld⟩ := h.held c (hlive.subset hc)
    exact ⟨i, hi, hframed.held (hS c hc) hheld⟩
  apart := h.apart.sublist hlive

/-- The node with the same views. -/
theorem ZonesInv.of_view (h : ZonesInv s) (hview : ∀ i, view u i = view s i) : ZonesInv u := by
  refine ⟨fun i hi => ?_, fun i hi j hj hne => ?_⟩
  · rw [hview]
    exact h.zones i hi
  · rw [hview, hview]
    exact h.spans i hi j hj hne

/-- The owner of a page changes its descriptor. -/
theorem setPage_inv (h : ZonesInv s) (hi : i < maxNrZones) {d : Page}
    (hheld : page ∈ Held i (view s i)) (hzone : pageZoneId d = pageZoneId (s.pages page))
    (hmark : pageBuddy d = true → pageBuddy (s.pages page) = true) :
    ZonesInv { s with pages := setPage s.pages page d } ∧
      ZonesFramed ∅ s { s with pages := setPage s.pages page d } := by
  have hkeep : Keeps (view s i).zone.pages (setPage s.pages page d) (Held i (view s i)) :=
    keeps_setPage hzone hmark hheld
  obtain ⟨hinv, -⟩ := (h.zones i hi).keeps hkeep
  obtain ⟨hnode, hframed⟩ := settle_inv h hi hinv (framed_keeps hkeep (held_subset _))
  have hview : ∀ j, view { s with pages := setPage s.pages page d } j = view (settle s i
      { view s i with zone := { (view s i).zone with pages := setPage s.pages page d } }) j := by
    intro j
    by_cases hj : j = i
    · rw [hj, view_settle]
      rfl
    · rw [view_settle_other s hj]
      rfl
  refine ⟨ZonesInv.of_view hnode hview, hframed.zoneId, fun j => ?_, fun j => ?_, rfl, rfl⟩
  · rw [hview]
    exact hframed.zonePages j
  · rw [hview]
    exact hframed.free j

/-- `__free_pages` of a block that is out. -/
theorem freePages_kept (h : Kept w) (hb : (page, order) ∈ w.live) :
    ∃ u, ZonelistModel.freePages page order w.node = some u ∧
      Kept ⟨u, if (w.node.pages page).count - 1 = 0 then w.live.erase (page, order) else w.live⟩ := by
  obtain ⟨hi, hheld⟩ := h.zone hb
  obtain ⟨horder, haligned⟩ := h.aligned _ hb
  have hpage := hheld (mem_span_self page order)
  obtain ⟨hinv, hdropped⟩ := setPage_inv h.node hi
    (d := { w.node.pages page with count := (w.node.pages page).count - 1 }) hpage rfl fun hm => hm
  have hheld' := hdropped.held (Set.disjoint_empty _) hheld
  have hzone : pageZoneId (dropReference w.node.pages page page) =
      pageZoneId (w.node.pages page) := hdropped.zoneId page
  have hcount : (dropReference w.node.pages page page).count = (w.node.pages page).count - 1 := by
    rw [dropReference, setPage_self]
  have hsame : ∀ c ∈ w.live, Disjoint (span c.1 c.2) ∅ := fun c _ => Set.disjoint_empty _
  have hrest : ∀ c ∈ w.live.erase (page, order), Disjoint (span c.1 c.2) (span page order) := by
    intro c hc
    have hperm := List.perm_cons_erase hb
    have hpairs := (hperm.pairwise_iff fun hxy => apart_symm hxy).mp h.apart
    exact ((List.pairwise_cons.mp hpairs).1 c hc).symm
  simp only [ZonelistModel.freePages, hcount, hzone]
  by_cases hzero : (w.node.pages page).count - 1 = 0
  · rw [if_pos hzero, if_pos hzero]
    by_cases ho : order = 0
    · subst ho
      rw [if_pos rfl]
      obtain ⟨v, hv, hvinv⟩ := freeHotColdPage_inv (hinv.zones _ hi)
        (hheld' (mem_span_self page 0)) false
      have hframe := framed_freeHotColdPage (hinv.zones _ hi) (hheld' (mem_span_self page 0)) hv
      obtain ⟨hnode, hframed⟩ := settle_inv hinv hi hvinv hframe
      refine ⟨_, by rw [dropReference, hv, Option.map_some], h.framed hnode (hdropped.trans hframed)
        List.erase_sublist fun c hc => ?_⟩
      rw [Set.empty_union]
      exact hrest c hc
    · rw [if_neg ho]
      have hvinv := freePagesOk_inv (hinv.zones _ hi) horder haligned hheld'
      have hframe := framed_freePagesOk (hinv.zones _ hi) horder haligned hheld'
      obtain ⟨hnode, hframed⟩ := settle_inv hinv hi hvinv hframe
      refine ⟨_, rfl, h.framed hnode (hdropped.trans hframed) List.erase_sublist fun c hc => ?_⟩
      rw [Set.empty_union]
      exact hrest c hc
  · rw [if_neg hzero, if_neg hzero]
    exact ⟨_, rfl, h.framed hinv hdropped (.refl _) hsame⟩

/-- A block that `alloc_pages` gives joins the blocks that are out. -/
theorem Kept.served (h : Kept w) {r : Request} {l : List Pass} {u : Zones}
    (hserved : Served r l w.node u page) : Kept ⟨u, (page, r.order) :: w.live⟩ := by
  obtain ⟨-, -, -, -, -, -, i, hi, -, hfree, hheld, -⟩ := hserved.block
  have hzone := (mem_candidates.mp hi).1
  have hold := h.framed hserved.inv hserved.framed (.refl _) fun c _ => Set.disjoint_empty _
  refine ⟨hserved.inv, fun c hc => ?_, fun c hc => ?_, List.pairwise_cons.mpr
    ⟨fun c hc => h.fresh hzone hfree hc, h.apart⟩⟩
  · rcases List.mem_cons.mp hc with rfl | hc
    · exact ⟨hfree.order_lt, hfree.aligned⟩
    · exact h.aligned c hc
  · rcases List.mem_cons.mp hc with rfl | hc
    · exact ⟨i, hzone, hheld⟩
    · exact hold.held c hc

/-- Every operation that ends keeps the books. -/
theorem perform_kept (h : Kept w) {op : Op} (hlegal : Legal w op) (hrun : perform w op = some w') :
    Kept w' := by
  cases op with
  | alloc fuel allowedMask x gfpMask order =>
    obtain ⟨⟨p, u⟩, hq, rfl⟩ := Option.map_eq_some_iff.mp hrun
    obtain ⟨hinv, hframed, hserved⟩ := allocPages_gives h.node hlegal hq
    cases p with
    | none => exact h.framed hinv hframed (.refl _) fun c _ => Set.disjoint_empty _
    | some page => exact h.served (hserved page rfl)
  | free page order =>
    obtain ⟨u, hu, hkept⟩ := freePages_kept h hlegal
    rw [perform, hu, Option.map_some] at hrun
    rw [← Option.some.inj hrun]
    exact hkept
  | use page descriptor =>
    obtain ⟨⟨b, hb, hpage⟩, hzone, hmark⟩ := hlegal
    obtain ⟨hi, hheld⟩ := h.onePage hb hpage
    obtain ⟨hinv, hframed⟩ := setPage_inv h.node hi hheld hzone fun hm => by
      rw [hmark] at hm
      cases hm
    rw [← Option.some.inj hrun]
    exact h.framed hinv hframed (.refl _) fun c _ => Set.disjoint_empty _

/-- The books after a history. -/
theorem history_kept {boot : List (ℕ × ℕ)} (hboot : Booted s boot) {ops : List Op}
    (hlegal : Admissible perform Legal ⟨s, boot⟩ ops)
    (hexec : exec perform ⟨s, boot⟩ ops = some w) : Kept w :=
  exec_preserves (fun _ _ _ hk hl hr => perform_kept hk hl hr) hboot.kept hlegal hexec

/-- A node with four pages from 8 on in zone 0 and four from 12 on in zone 1; zone 2 is empty. -/
def smallNode : Zones where
  zones := twoZones.zones
  pages := twoZones.pages
  pagesets _ := setupPageset 1
  limits i := ⟨if i < 2 then 4 else 0, fun _ => 0, fun _ => 0⟩
  mobilityDisabled := false

/-- Its blocks at boot. -/
def smallBoot : List (ℕ × ℕ) := [(8, 2), (12, 1)]

theorem smallNode_booted : Booted smallNode smallBoot where
  untouched i hi :=
    have h := twoZones_booting.untouched i hi
    ⟨h.freeList_eq, h.nrFree_eq, h.unmarked⟩
  types := twoZones_booting.types
  nrFreePages := twoZones_booting.nrFreePages
  pagesets _ _ := .pageset 1 (by decide)
  spans := twoZones_booting.spans
  aligned := by decide
  inside b hb := by
    rcases List.mem_cons.mp hb with rfl | hb
    · refine ⟨0, by decide, fun q hq => ?_⟩
      have hrange : 8 ≤ q ∧ q < 12 := hq
      have hcases : q = 8 ∨ q = 9 ∨ q = 10 ∨ q = 11 := by omega
      rcases hcases with rfl | rfl | rfl | rfl <;>
        exact ⟨Set.mem_Ico.mpr ⟨by decide, by decide⟩, rfl, by decide⟩
    · rw [List.mem_singleton] at hb
      subst hb
      refine ⟨1, by decide, fun q hq => ?_⟩
      have hrange : 12 ≤ q ∧ q < 14 := hq
      have hcases : q = 12 ∨ q = 13 := by omega
      rcases hcases with rfl | rfl <;>
        exact ⟨Set.mem_Ico.mpr ⟨by decide, by decide⟩, rfl, by decide⟩
  apart := by
    refine List.pairwise_cons.mpr ⟨fun c hc => ?_, List.pairwise_singleton _ _⟩
    rw [List.mem_singleton] at hc
    subst hc
    refine Set.disjoint_left.mpr fun q hq hq' => ?_
    have hfirst : 8 ≤ q ∧ q < 12 := hq
    have hsecond : 12 ≤ q ∧ q < 14 := hq'
    omega

/-- An ordinary task; the counters say that four pages are free. -/
def fourFree : Surroundings := ⟨⟨false, false, false⟩, fun _ => 4, fun _ => 4, 0⟩

/-- The first block is freed, and two of its pages are handed out again. -/
def splitBlock : List Op :=
  [.use 8 ⟨0, 1, -1, 0, 0, 0⟩, .free 8 2, .alloc 0 gfpHigh fourFree gfpHigh 1]

theorem splitBlock_legal : Admissible perform Legal ⟨smallNode, smallBoot⟩ splitBlock := by
  refine ⟨⟨⟨(8, 2), by decide, mem_span_self 8 2⟩, by decide, by decide⟩, fun w hw => ?_⟩
  obtain rfl := Option.some.inj hw
  exact ⟨show (8, 2) ∈ smallBoot by decide,
    fun _ _ => ⟨show ¬(has gfpHigh gfpMovable ∧ has gfpHigh gfpReclaimable) by decide,
      fun _ _ => trivial⟩⟩

/-- After each history of `alloc_pages` over all zones, `__free_pages` and use by the owners, blocks
that are out are aligned, of one zone each, on no list and apart, and the counters of every zone
agree with its lists. -/
theorem history_apart {boot : List (ℕ × ℕ)} (hboot : Booted s boot) {ops : List Op}
    (hlegal : Admissible perform Legal ⟨s, boot⟩ ops)
    (hexec : exec perform ⟨s, boot⟩ ops = some w) :
    Kept w ∧ ∀ i < maxNrZones, Accounted i (view w.node i) := by
  have hkept := history_kept hboot hlegal hexec
  exact ⟨hkept, fun i hi => accounted (hkept.node.zones i hi)⟩

/-- A part of the freed block is out again, beside the other block. -/
theorem history_apart_splitBlock : ∃ w, exec perform ⟨smallNode, smallBoot⟩ splitBlock = some w ∧
    w.live = [(8, 1), (12, 1)] ∧ Kept w := by
  have hrun : (exec perform ⟨smallNode, smallBoot⟩ splitBlock).map World.live =
      some [(8, 1), (12, 1)] := by decide +kernel
  obtain ⟨w, hw, hlive⟩ := Option.map_eq_some_iff.mp hrun
  exact ⟨w, hw, hlive, (history_apart smallNode_booted splitBlock_legal hw).1⟩

end BiscuitOS.ZonelistHistory
