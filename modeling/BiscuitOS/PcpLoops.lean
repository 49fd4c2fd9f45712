import BiscuitOS.PcpInvariant

/-!
# The loops of the per-cpu page lists

The round-robin drain frees exactly the pages it is asked for, provided the
lists hold as many, and then it ends. The bulk refill and the retry of an
allocation always end. Each loop keeps the invariant, with the counters
corrected by what the loop has moved.
-/

namespace BiscuitOS.PcpLoops

open PageModel BuddyModel DyadicBlock ListTable BuddyInvariant BuddyRemoval PcpModel PcpInvariant
  MachineWord

variable {s s' : PcpZone} {z' : Zone} {pcp : PerCpuPages} {p o t id n : ℕ} {c f b : ℤ}

/-- Number of pages on the pageset. -/
def pcpTotal (pcp : PerCpuPages) : ℤ := total (Finset.range migratePcptypes) pcp.lists

/-- The total over the three lists. -/
theorem pcpTotal_eq (pcp : PerCpuPages) :
    pcpTotal pcp = (pcp.lists 0).length + (pcp.lists 1).length + (pcp.lists 2).length := by
  simp only [pcpTotal, total, migratePcptypes, Finset.sum_range_succ, Finset.sum_range_zero,
    zero_add]

/-- The next migrate type in turn. -/
theorem next_type (ht : t < migratePcptypes) :
    (if t + 1 = migratePcptypes then 0 else t + 1) = (t + 1) % migratePcptypes := by
  rw [migratePcptypes] at ht ⊢
  split <;> omega

/-- The search returns a list that is not empty. -/
theorem nextList_found (n : ℕ) : ∀ {b : ℤ} {t : ℕ} {r : ℤ × ℕ}, t < migratePcptypes →
    nextList pcp b t n = some r → r.2 < migratePcptypes ∧ pcp.lists r.2 ≠ [] := by
  induction n with
  | zero =>
    intro b t r _ h
    cases h
  | succ n ih =>
    intro b t r ht h
    have hlt : (t + 1) % migratePcptypes < migratePcptypes := Nat.mod_lt _ (by decide)
    simp only [nextList, next_type ht] at h
    split at h
    · exact ih hlt h
    · next hne =>
      rw [Option.some.injEq] at h
      rw [← h]
      exact ⟨hlt, hne⟩

/-- The search gives up only after a turn over empty lists. -/
theorem nextList_skips (n : ℕ) : ∀ {b : ℤ} {t : ℕ}, t < migratePcptypes →
    nextList pcp b t n = none → ∀ i < n, pcp.lists ((t + 1 + i) % migratePcptypes) = [] := by
  induction n with
  | zero => exact fun _ _ i hi => absurd hi (Nat.not_lt_zero i)
  | succ n ih =>
    intro b t ht h i hi
    have hlt : (t + 1) % migratePcptypes < migratePcptypes := Nat.mod_lt _ (by decide)
    simp only [nextList, next_type ht] at h
    split at h
    · next hempty =>
      cases i with
      | zero => exact hempty
      | succ i =>
        have hrest := ih hlt h i (Nat.lt_of_succ_lt_succ hi)
        rw [migratePcptypes] at hrest ⊢
        have he : (t + 1 + (i + 1)) % 3 = ((t + 1) % 3 + 1 + i) % 3 := by omega
        rw [he]
        exact hrest
    · cases h

/-- A list that is not empty is found within one turn. -/
theorem nextList_some (hpos : 0 < pcpTotal pcp) (ht : t < migratePcptypes) (b : ℤ) :
    ∃ r, nextList pcp b t migratePcptypes = some r ∧ r.2 < migratePcptypes ∧
      pcp.lists r.2 ≠ [] := by
  cases h : nextList pcp b t migratePcptypes with
  | some r => exact ⟨r, rfl, nextList_found _ ht h⟩
  | none =>
    have hskip := nextList_skips _ ht h
    have hempty : ∀ u < migratePcptypes, pcp.lists u = [] := fun u hu => by
      have hu' := hskip ((u + migratePcptypes - (t + 1)) % migratePcptypes)
        (Nat.mod_lt _ (by decide))
      rw [migratePcptypes] at hu hu' ht
      have he : (t + 1 + (u + 3 - (t + 1)) % 3) % 3 = u := by omega
      rwa [he] at hu'
    rw [pcpTotal_eq, hempty 0 (by decide), hempty 1 (by decide), hempty 2 (by decide)] at hpos
    exact absurd hpos (by decide)

/-- A state that differs in the zone and in the lists of the pageset only. -/
def SamePcp (s s' : PcpZone) : Prop := s'.pcp = { s.pcp with lists := s'.pcp.lists }

/-- One state after another. -/
theorem SamePcp.trans {s'' : PcpZone} (h : SamePcp s s') (h' : SamePcp s' s'') : SamePcp s s'' := by
  rw [SamePcp, h', h]

/-- Moving the last page of a list of the pageset to the free lists. -/
theorem drainPage (h : PcpInv id c f s) (hp : p ∈ s.pcp.lists t) :
    PcpInv id (c + 1) (f - 1)
      { pcpDel s p with
        zone := freeOnePage (pcpDel s p).zone p 0 ((pcpDel s p).zone.pages p).word } := by
  have hm : p ∈ members s.pcp.lists := mem_members.mpr ⟨t, hp⟩
  obtain ⟨hdel, hheld⟩ := h.pcpDel hm
  have ho : 0 < maxOrder := by decide
  refine hdel.freeHeld ho (h.ownType p hm) (one_dvd p) ?_
  intro q hq
  simp only [span, Set.mem_Ico, pow_zero] at hq
  have he : q = p := by omega
  rw [he]
  exact hheld

/-- What draining `k` pages does. -/
structure Drained (id : ℕ) (c f : ℤ) (s : PcpZone) (k : ℕ) (s' : PcpZone) : Prop where
  inv : PcpInv id (c + k) (f - k) s'
  same : SamePcp s s'

/-- The pages left on the pageset. -/
theorem Drained.total (h : PcpInv id c f s) (hd : Drained id c f s n s') :
    pcpTotal s'.pcp = pcpTotal s.pcp - n := by
  have h1 := h.count
  have h2 := hd.inv.count
  have h3 : s'.pcp.count = s.pcp.count := by rw [hd.same]
  rw [pcpTotal, pcpTotal]
  omega

/-- The inner loop drains at least one page. -/
theorem drainList_spec (n : ℕ) : ∀ {c f : ℤ} {s : PcpZone} {b : ℤ}, PcpInv id c f s →
    s.pcp.lists t ≠ [] → ∃ k ≤ n, (drainList s t b (n + 1)).2.1 = n - k ∧
      Drained id c f s (k + 1) (drainList s t b (n + 1)).1 := by
  induction n with
  | zero =>
    intro c f s b h hne
    have hlast := List.getLast?_eq_some_getLast hne
    simp only [drainList, hlast, true_or, if_true]
    exact ⟨0, le_refl 0, rfl, drainPage h (List.getLast_mem hne), rfl⟩
  | succ n ih =>
    intro c f s b h hne
    have hlast := List.getLast?_eq_some_getLast hne
    have hone := drainPage h (List.getLast_mem hne)
    rw [drainList, hlast]
    dsimp only
    split
    · exact ⟨0, Nat.zero_le _, rfl, hone, rfl⟩
    · next hgo =>
      simp only [not_or] at hgo
      obtain ⟨k, hk, hleft, hd⟩ := ih (b := b - 1) hone hgo.2.2
      refine ⟨k + 1, Nat.succ_le_succ hk, hleft.trans (by omega), ?_, ?_⟩
      · exact hd.inv.congr (by push_cast; ring) (by push_cast; ring)
      · exact hd.same

/-- The outer loop drains what it is asked for when the lists hold as many pages. -/
theorem bulkFrom_spec (n : ℕ) : ∀ {c f : ℤ} {s : PcpZone} {b : ℤ} {t toFree : ℕ},
    PcpInv id c f s → t < migratePcptypes → toFree ≤ n → (toFree : ℤ) ≤ pcpTotal s.pcp →
    ∃ s', bulkFrom s t b toFree n = some s' ∧ Drained id c f s toFree s' := by
  induction n with
  | zero =>
    intro c f s b t toFree h _ hn _
    rw [Nat.le_zero.mp hn]
    exact ⟨s, rfl, h.congr (by simp) (by simp), rfl⟩
  | succ n ih =>
    intro c f s b t toFree h ht hn hle
    cases toFree with
    | zero => exact ⟨s, rfl, h.congr (by simp) (by simp), rfl⟩
    | succ m =>
      have hpos : 0 < pcpTotal s.pcp := by omega
      obtain ⟨r, hr, hrt, hne⟩ := nextList_some hpos ht b
      obtain ⟨k, hk, hleft, hd⟩ := drainList_spec (b := r.1) m h hne
      have htotal := hd.total h
      have hrounds : m - k ≤ n := by omega
      have hleft' : ((m - k : ℕ) : ℤ) ≤ pcpTotal (drainList s r.2 r.1 (m + 1)).1.pcp := by
        push_cast at htotal hle
        omega
      obtain ⟨s', hs', hrest⟩ := ih (b := (drainList s r.2 r.1 (m + 1)).2.2) hd.inv hrt hrounds
        hleft'
      refine ⟨s', ?_, ?_, hd.same.trans hrest.same⟩
      · simp only [bulkFrom, Nat.add_eq_zero_iff, one_ne_zero, and_false, if_false, hr, hleft, hs']
      · exact hrest.inv.congr (by push_cast [Nat.cast_sub hk]; ring)
          (by push_cast [Nat.cast_sub hk]; ring)

/-- `free_pcppages_bulk` ends when it is asked for no more pages than the lists hold. -/
theorem freePcppagesBulk_spec (h : PcpInv id c f s) {count : ℤ} (hpos : 0 ≤ count)
    (hlt : count < 2 ^ 32) (hle : count ≤ pcpTotal s.pcp) :
    ∃ s', freePcppagesBulk s count = some s' ∧ PcpInv id (c + count) f s' ∧ SamePcp s s' := by
  have hmod : (toUnsigned 32 count : ℤ) = count := toUnsigned_of_lt hpos hlt
  have ht : 0 < migratePcptypes := by decide
  obtain ⟨r, hr, hd⟩ := bulkFrom_spec (b := 0) (toUnsigned 32 count) h ht (le_refl _)
    (hmod.trans_le hle)
  refine ⟨{ r with zone := modFreePages r.zone count }, ?_, ?_, hd.same⟩
  · simp only [freePcppagesBulk, hr, Option.map_some]
  · exact (hd.inv.modFreePages count).congr (by rw [hmod]) (by rw [hmod]; ring)

/-- Pages are never counted negatively. -/
theorem pcpTotal_nonneg (pcp : PerCpuPages) : 0 ≤ pcpTotal pcp := by
  rw [pcpTotal_eq]
  omega

/-- With nothing missing, the pages accounted for are the sum of the two counters. -/
theorem accountedPages_eq (h : PcpInv id 0 0 s) :
    accountedPages s = s.pcp.count + s.zone.nrFreePages := by
  rw [accountedPages, h.freePages, freePages, add_zero]

/-- The pages accounted for are not negative. -/
theorem accountedPages_nonneg (h : PcpInv id 0 0 s) : 0 ≤ accountedPages s := by
  have hcount : s.pcp.count = pcpTotal s.pcp := by rw [h.count, add_zero, pcpTotal]
  have hfree : 0 ≤ ∑ o ∈ Finset.range maxOrder, s.zone.nrFree o * 2 ^ o := by
    refine Finset.sum_nonneg fun o _ => mul_nonneg ?_ (by positivity)
    have ho := h.lists.counted o
    rw [Pi.zero_apply, add_zero] at ho
    rw [ho, listTotal]
    exact Finset.sum_nonneg fun t _ => Int.natCast_nonneg _
  have hpos := pcpTotal_nonneg s.pcp
  rw [accountedPages]
  omega

/-- The refill loop links the pages it takes. -/
theorem rmqueueBulkFrom_spec (cold : Bool) (ht : t < migratePcptypes) (n : ℕ) :
    ∀ {z : Zone} {before after : List ℕ} {i : ℕ} {c f : ℤ},
    PcpInv id c f (setPcpList { s with zone := z } t (before ++ after)) →
    ∃ k : ℕ, (rmqueueBulkFrom z 0 t cold before after i n).2.1 = i + k ∧
      (rmqueueBulkFrom z 0 t cold before after i n).1.nrFreePages = z.nrFreePages ∧
      PcpInv id (c - k) (f + k)
        (setPcpList { s with zone := (rmqueueBulkFrom z 0 t cold before after i n).1 } t
          (rmqueueBulkFrom z 0 t cold before after i n).2.2) := by
  have htypes : t < migrateTypes := Nat.lt_trans ht (by decide)
  induction n with
  | zero =>
    intro z before after i c f h
    exact ⟨0, rfl, rfl, h.congr (by simp) (by simp)⟩
  | succ n ih =>
    intro z before after i c f h
    rw [rmqueueBulkFrom]
    split
    · exact ⟨0, rfl, rfl, h.congr (by simp) (by simp)⟩
    · next r hr =>
      have hout := rmqueue_spec (z := z) h.lists htypes hr
      obtain ⟨hinv, hheld⟩ := h.handOut hout
      have hpage := hheld (mem_span_self r.1 0)
      obtain ⟨hset, hsame⟩ := hinv.keeps
        (keeps_setPage (d := { r.2.pages r.1 with word := t }) rfl (fun hb => hb) hpage)
      rw [← hsame] at hpage
      have hword : (setPage r.2.pages r.1 { r.2.pages r.1 with word := t } r.1).word = t := by
        rw [setPage_self]
      have hlist : (setPcpList { s with zone := z } t (before ++ after)).pcp.lists t =
          before ++ after := by
        simp only [setPcpList, Function.update_self]
      have hlink : ∀ l, l.Perm (r.1 :: (before ++ after)) → PcpInv id (c - 1) (f + 1)
          (setPcpList { s with zone := setPagePrivate r.2 r.1 t } t l) := fun l hl => by
        have hstep := hset.link hpage (by dsimp only; rw [hword]; exact htypes) ht (l := l)
          (by dsimp only; rw [hlist]; exact hl)
        simp only [setPcpList, Function.update_idem] at hstep
        exact hstep.congr rfl (by norm_num)
      have hfinish : ∀ {before' after' : List ℕ},
          (before' ++ after').Perm (r.1 :: (before ++ after)) →
          ∃ k : ℕ, (rmqueueBulkFrom (setPagePrivate r.2 r.1 t) 0 t cold before' after'
              (i + 1) n).2.1 = i + k ∧
            (rmqueueBulkFrom (setPagePrivate r.2 r.1 t) 0 t cold before' after'
              (i + 1) n).1.nrFreePages = z.nrFreePages ∧
            PcpInv id (c - k) (f + k) (setPcpList { s with zone := (rmqueueBulkFrom
              (setPagePrivate r.2 r.1 t) 0 t cold before' after' (i + 1) n).1 } t
              (rmqueueBulkFrom (setPagePrivate r.2 r.1 t) 0 t cold before' after'
                (i + 1) n).2.2) := fun hperm => by
        obtain ⟨k, hk, hnr, hrest⟩ := ih (i := i + 1) (hlink _ hperm)
        exact ⟨k + 1, hk.trans (by omega), hnr.trans hout.moves.nrFreePages_eq,
          hrest.congr (by push_cast; ring) (by push_cast; ring)⟩
      dsimp only
      split
      · exact hfinish List.perm_middle
      · refine hfinish ?_
        rw [List.append_assoc]
        exact List.perm_middle

/-- Replacing a list by itself. -/
theorem setPcpList_self (s : PcpZone) (t : ℕ) : setPcpList s t (s.pcp.lists t) = s := by
  simp only [setPcpList, Function.update_eq_self]

/-- Refilling a list moves pages from one counter to the other. -/
theorem rmqueueBulk_spec (h : PcpInv id 0 0 s) (ht : t < migratePcptypes) (cold : Bool) (n : ℕ) :
    PcpInv id 0 0 (addCount (rmqueueBulk s 0 n t cold).1 (rmqueueBulk s 0 n t cold).2) ∧
      accountedPages (addCount (rmqueueBulk s 0 n t cold).1 (rmqueueBulk s 0 n t cold).2) =
        accountedPages s := by
  have hbulk : ∃ k : ℕ, ∃ r : Zone × ℕ × List ℕ, rmqueueBulk s 0 n t cold =
      (setPcpList { s with zone := modFreePages r.1 (-(k * 2 ^ 0 : ℕ)) } t r.2.2, k) ∧
      r.1.nrFreePages = s.zone.nrFreePages ∧
      PcpInv id (0 - k) (0 + k) (setPcpList { s with zone := r.1 } t r.2.2) := by
    simp only [rmqueueBulk]
    cases cold with
    | true =>
      have hstart : PcpInv id 0 0 (setPcpList { s with zone := s.zone } t
          (s.pcp.lists t ++ [])) := by
        rw [List.append_nil, setPcpList_self]
        exact h
      obtain ⟨k, hk, hnr, hinv⟩ := rmqueueBulkFrom_spec true ht n (i := 0) hstart
      rw [Nat.zero_add] at hk
      simp only [if_true, hk]
      exact ⟨k, _, rfl, hnr, hinv⟩
    | false =>
      have hstart : PcpInv id 0 0 (setPcpList { s with zone := s.zone } t
          ([] ++ s.pcp.lists t)) := by
        rw [List.nil_append, setPcpList_self]
        exact h
      obtain ⟨k, hk, hnr, hinv⟩ := rmqueueBulkFrom_spec false ht n (i := 0) hstart
      rw [Nat.zero_add] at hk
      simp only [Bool.false_eq_true, if_false, hk]
      exact ⟨k, _, rfl, hnr, hinv⟩
  obtain ⟨k, r, hr, hnr, hinv⟩ := hbulk
  rw [hr]
  have hdone : PcpInv id 0 0 (addCount (setPcpList
      { s with zone := modFreePages r.1 (-(k * 2 ^ 0 : ℕ)) } t r.2.2) k) :=
    ((hinv.modFreePages (-(k * 2 ^ 0 : ℕ))).addCount k).congr (by ring) (by push_cast; ring)
  refine ⟨hdone, ?_⟩
  rw [accountedPages_eq hdone, accountedPages_eq h]
  simp only [addCount, setPcpList, modFreePages, hnr, pow_zero, mul_one]
  ring

/-- What an attempt to take a block does; a block taken is held afterwards. -/
structure Taken (id order : ℕ) (s : PcpZone) (r : Option ℕ × PcpZone) : Prop where
  inv : PcpInv id 0 0 r.2
  held : ∀ page, r.1 = some page → span page order ⊆ Held id r.2
  fewer : ∀ page, r.1 = some page → accountedPages r.2 < accountedPages s

/-- Taking a page off the pageset. -/
theorem taken_pcpDel (h : PcpInv id 0 0 s) (hp : p ∈ s.pcp.lists t) :
    PcpInv id 0 0 (addCount (pcpDel s p) (-1)) ∧
      span p 0 ⊆ Held id (addCount (pcpDel s p) (-1)) ∧
      accountedPages (addCount (pcpDel s p) (-1)) < accountedPages s := by
  obtain ⟨hdel, hheld⟩ := h.pcpDel (mem_members.mpr ⟨t, hp⟩)
  have hinv : PcpInv id 0 0 (addCount (pcpDel s p) (-1)) :=
    (hdel.addCount (-1)).congr (by norm_num) rfl
  refine ⟨hinv, fun q hq => ?_, ?_⟩
  · simp only [span, Set.mem_Ico, pow_zero] at hq
    have he : q = p := by omega
    rw [he]
    exact hheld
  · rw [accountedPages_eq hinv, accountedPages_eq h]
    simp only [addCount, pcpDel]
    omega

/-- One attempt of `buffered_rmqueue`. -/
theorem takePages_spec (h : PcpInv id 0 0 s) (ht : t < migrateTypes)
    (hpcp : o = 0 → t < migratePcptypes) (cold : Bool) :
    Taken id o s (takePages s o t cold) := by
  rw [takePages]
  split
  · next ho =>
    subst ho
    have hfill : ∃ s', (if s.pcp.lists t = [] then
        addCount (rmqueueBulk s 0 (toUnsigned 64 s.pcp.batch) t cold).1
          (rmqueueBulk s 0 (toUnsigned 64 s.pcp.batch) t cold).2 else s) = s' ∧
        PcpInv id 0 0 s' ∧ accountedPages s' = accountedPages s := by
      split
      · exact ⟨_, rfl, rmqueueBulk_spec h (hpcp rfl) cold _⟩
      · exact ⟨s, rfl, h, rfl⟩
    obtain ⟨s', hs', hinv, hacc⟩ := hfill
    dsimp only
    rw [hs']
    split
    · exact ⟨hinv, fun _ hc => (by cases hc), fun _ hc => (by cases hc)⟩
    · next page hpage =>
      have hmem : page ∈ s'.pcp.lists t := by
        split at hpage
        · exact List.mem_of_getLast? hpage
        · exact List.mem_of_head? hpage
      obtain ⟨hdel, hheld, hfewer⟩ := taken_pcpDel hinv hmem
      rw [hacc] at hfewer
      refine ⟨hdel, fun q hq => ?_, fun q _ => hfewer⟩
      rw [← Option.some.inj hq]
      exact hheld
  · split
    · exact ⟨h, fun _ hc => (by cases hc), fun _ hc => (by cases hc)⟩
    · next r hr =>
      have hout := rmqueue_spec h.lists ht hr
      obtain ⟨hinv, hheld⟩ := h.handOut hout
      have hdone : PcpInv id 0 0 { s with zone := modFreePages r.2 (-2 ^ o) } :=
        (hinv.modFreePages (-2 ^ o)).congr rfl (by ring)
      refine ⟨hdone, fun q hq => ?_, fun q _ => ?_⟩
      · rw [← Option.some.inj hq]
        exact hheld
      · have hnr := hout.moves.nrFreePages_eq
        rw [accountedPages_eq hdone, accountedPages_eq h]
        simp only [modFreePages, hnr]
        have hpos : (0 : ℤ) < 2 ^ o := by positivity
        omega

/-- `buffered_rmqueue` ends, since every rejected block leaves the lists. -/
theorem bufferedFrom_spec (ht : t < migrateTypes) (hpcp : o = 0 → t < migratePcptypes)
    (gfp : GfpFlags) (n : ℕ) : ∀ {s : PcpZone}, PcpInv id 0 0 s → accountedPages s < n →
    ∃ r, bufferedFrom s o t gfp n = some r ∧ PcpInv id 0 0 r.2 ∧
      ∀ page, r.1 = some page → span page o ⊆ Held id r.2 := by
  induction n with
  | zero =>
    intro s h hn
    have hpos := accountedPages_nonneg h
    rw [Nat.cast_zero] at hn
    omega
  | succ n ih =>
    intro s h hn
    have htaken := takePages_spec h ht hpcp gfp.cold
    rw [bufferedFrom]
    generalize takePages s o t gfp.cold = r at htaken
    dsimp only
    cases hr : r.1 with
    | none => exact ⟨_, rfl, htaken.inv, fun _ hc => by cases hc⟩
    | some page =>
      have hheld := htaken.held page hr
      have hfewer := htaken.fewer page hr
      obtain ⟨hinv, hsame⟩ := htaken.inv.keeps (keeps_prepNewPage gfp hheld)
      dsimp only
      split
      · refine ih hinv ?_
        have hacc : accountedPages { r.2 with zone := { r.2.zone with
            pages := (prepNewPage r.2.zone.pages page o gfp).2 } } = accountedPages r.2 := rfl
        rw [hacc]
        push_cast at hn
        omega
      · refine ⟨_, rfl, hinv, fun q hq => ?_⟩
        rw [← Option.some.inj hq]
        dsimp only
        rw [hsame]
        exact hheld

/-- `buffered_rmqueue` ends and keeps the invariant; the block it returns is held. -/
theorem bufferedRmqueue_spec (h : PcpInv id 0 0 s) (ht : t < migrateTypes)
    (hpcp : o = 0 → t < migratePcptypes) (gfp : GfpFlags) :
    ∃ r, bufferedRmqueue s o t gfp = some r ∧ PcpInv id 0 0 r.2 ∧
      ∀ page, r.1 = some page → span page o ⊆ Held id r.2 := by
  have hok : ¬ (o = 0 ∧ migratePcptypes ≤ t) := fun hc => Nat.not_le_of_lt (hpcp hc.1) hc.2
  have hpos := accountedPages_nonneg h
  rw [bufferedRmqueue, if_neg hok]
  exact bufferedFrom_spec ht hpcp gfp _ h (by push_cast; omega)

end BiscuitOS.PcpLoops
