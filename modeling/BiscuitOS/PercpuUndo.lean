import BiscuitOS.PercpuFirst

/-!
# A release undoes an allocation

An area of the first per-cpu chunk that is released at once gives back its
block. What it does not give back is the small gap before the area, which went
to the block before, and a block at offset zero behind an entry of no bytes,
where the search stops too early. `free_size` is restored exactly when neither
is met, and then the free bytes are too if the release moves the right entries.
-/

namespace BiscuitOS.PercpuUndo

open MachineWord TransitionRun BlockTiling PercpuModel PercpuBlocks PercpuHistory PercpuFirst

/-- What an operation must not meet: a small gap that an allocation gives to the block before, a
release that moves the wrong entries, or one of an area at offset zero behind an entry of no bytes. -/
def Meets (w : ChunkWorld) : ChunkOp → Prop
  | .alloc size align =>
    Legal w (.alloc size align) ∧ smallHead size align 0 w.chunk.entries = false
  | .free freeme => Legal w (.free freeme) ∧ MovesRight w.chunk (.free freeme) ∧
      PastNothing w.chunk (.free freeme)
  | .extend _ _ => True

instance (w : ChunkWorld) : (op : ChunkOp) → Decidable (Meets w op)
  | .alloc _ _ => inferInstanceAs (Decidable (_ ∧ _))
  | .free _ => inferInstanceAs (Decidable (_ ∧ _ ∧ _))
  | .extend _ _ => isTrue trivial

/-- An allocation and the release of its area leave `free_size` as it was exactly without a small gap
and not at offset zero behind an entry of no bytes, and the free bytes too where the release moves the
right entries. -/
def Undoes (c : PcpuChunk) (size align : ℕ) : Prop :=
  ∀ t off, pcpuAllocArea c size align = (off, t) → 0 ≤ off →
    ((pcpuFreeArea t off.toNat).freeSize = c.freeSize ↔
        smallHead size align 0 c.entries = false ∧ PastNothing t (.free off.toNat)) ∧
      (smallHead size align 0 c.entries = false → PastNothing t (.free off.toNat) →
        MovesRight t (.free off.toNat) →
        ∀ b, FreeAt 0 (pcpuFreeArea t off.toNat).entries b ↔ FreeAt 0 c.entries b)

/-- Merging with the block before leaves `free_size`. -/
theorem mergePrevious_freeSize (c : PcpuChunk) (i : ℕ) :
    (mergePrevious c i).1.freeSize = c.freeSize := by
  rw [mergePrevious]
  split <;> rfl

/-- Merging with the block after leaves `free_size`. -/
theorem mergeNext_freeSize (c : PcpuChunk) (i : ℕ) : (mergeNext c i).freeSize = c.freeSize := by
  rw [mergeNext]
  split <;> rfl

/-- A release adds the entry that it finds. -/
theorem pcpuFreeArea_freeSize (c : PcpuChunk) (freeme : ℕ) :
    (pcpuFreeArea c freeme).freeSize =
      c.freeSize - c.map (findBlock c freeme 0 0 c.mapUsed) := by
  rw [pcpuFreeArea]
  dsimp only
  rw [mergeNext_freeSize, mergePrevious_freeSize]

/-- One free block or none. -/
def AtMostOne (P : List ℤ) : Prop := P = [] ∨ ∃ p, P = [p] ∧ 0 ≤ p

/-- An optional block of no negative size. -/
theorem optionalBlock_atMostOne {x : ℤ} (h : 0 ≤ x) :
    AtMostOne (optionalBlock x) ∧ freeSum (optionalBlock x) = x := by
  refine ⟨?_, freeSum_optional h⟩
  rw [optionalBlock]
  split
  · exact .inr ⟨x, rfl, h⟩
  · exact .inl rfl

/-- A block merged with a free one on each side has the bytes of all. -/
theorem freeAt_merged {A P Q B : List ℤ} {x : ℤ} (hP : AtMostOne P) (hQ : AtMostOne Q) (hx : 0 ≤ x)
    (b : ℕ) : FreeAt 0 (A ++ (freeSum P + x + freeSum Q) :: B) b ↔
      FreeAt 0 ((A ++ P) ++ x :: (Q ++ B)) b := by
  have hback : ∀ (A B Q : List ℤ) (y : ℤ), 0 ≤ y → AtMostOne Q →
      (FreeAt 0 (A ++ (y + freeSum Q) :: B) b ↔ FreeAt 0 (A ++ y :: (Q ++ B)) b) := by
    intro A B Q y hy hQ
    rcases hQ with hnil | ⟨q, hq, hpos⟩
    · rw [hnil, freeSum_nil, add_zero, List.nil_append]
    · rw [hq, freeSum_cons, freeSum_nil, add_zero, max_eq_left hpos]
      have hext : extent [y + q] = extent [y, q] := by
        simp only [extent_cons, extent_nil]
        omega
      exact freeAt_replace hext (fun s b => (freeAt_pair hy hpos s b).symm) 0 b
  rcases hP with hnil | ⟨p, hp, hpos⟩
  · rw [hnil, freeSum_nil, zero_add, List.append_nil]
    exact hback A B Q x hx hQ
  · rw [hp, freeSum_cons, freeSum_nil, add_zero, max_eq_left hpos, hback A B Q _ (by omega) hQ]
    have hext : extent [p + x] = extent [p, x] := by
      simp only [extent_cons, extent_nil]
      omega
    have hpair := freeAt_replace (A := A) (B := Q ++ B) hext
      (fun s b => (freeAt_pair hpos hx s b).symm) 0 b
    rw [List.append_assoc]
    exact hpair

/-- The free bytes after a release are those with the block free. -/
theorem released_freeAt {c t : PcpuChunk} {A P Q B : List ℤ} {x : ℤ} (hr : Released c A P Q B x t)
    (hx : x < 0) (b : ℕ) :
    FreeAt 0 t.entries b ↔ FreeAt 0 ((A ++ P) ++ (-x) :: (Q ++ B)) b := by
  have hP : AtMostOne P := hr.before.imp And.left id
  have hQ : AtMostOne Q := hr.after.imp And.left id
  rw [hr.entries, sub_eq_add_neg]
  exact freeAt_merged hP hQ (by omega) b

variable {held free : ℕ} {w : ChunkWorld}

/-- The map of the first chunk is one that `pcpu_alloc_area` is made for. -/
theorem first_map (hs : FirstSound held free w) (hmax : held + free + pageSize ≤ 2 ^ 31) :
    extent w.chunk.entries + pageSize ≤ 2 ^ 31 ∧ w.chunk.entries.IsChain NotBothFree := by
  cases hs with
  | nothing none entries room sound =>
    have he := tail_entries entries
    have hext : extent (tailChunk w.chunk).entries = free := sound.extent
    rw [he, extent_cons, Int.natAbs_zero, Nat.zero_add, hext]
    exact ⟨by omega, (isChain_held_iff le_rfl [] _).mpr ⟨List.isChain_nil, sound.separated⟩⟩
  | something pos sound =>
    have hext : extent w.chunk.entries = held + free := sound.extent
    rw [hext]
    exact ⟨hmax, sound.separated⟩

/-- A block at offset zero behind others follows an entry of no bytes. -/
theorem first_zero {L R : List ℤ}
    (he : w.chunk.entries = L ++ R) (hne : L ≠ []) (hzero : extent L = 0) : w.chunk.map 0 = 0 := by
  cases L with
  | nil => exact absurd rfl hne
  | cons y L =>
    have hmap := map_of_entries (A := []) he
    rw [List.length_nil] at hmap
    rw [extent_cons] at hzero
    omega

/-- What a release right after an allocation does to `free_size`. -/
theorem first_release {t : ChunkWorld} (ht : FirstSound held free t) {L R : List ℤ} {x : ℤ}
    (he : t.chunk.entries = L ++ x :: R) (hpast : PastNothing t.chunk (.free (extent L))) :
    findBlock t.chunk (extent L) 0 0 t.chunk.mapUsed = L.length := by
  have hnonzero := ht.nonzero
  refine findBlock_start he (fun y hy => hnonzero y ?_) fun hne hzero => ?_
  · rw [he]
    cases L with
    | nil => cases hy
    | cons z L =>
      rw [List.tail_cons] at hy
      rw [List.cons_append, List.tail_cons]
      exact List.mem_append_left _ hy
  · exact hpast ⟨hzero, first_zero he hne hzero⟩

/-- The first chunk undoes an allocation as told. -/
theorem first_undoes (hs : FirstSound held free w) (hmax : held + free + pageSize ≤ 2 ^ 31)
    {size align : ℕ} (hlegal : Legal w (.alloc size align)) : Undoes w.chunk size align := by
  intro t off halloc hoff
  obtain ⟨hext, hsep⟩ := first_map hs hmax
  have hend := pcpuAllocArea_ends hlegal.1 hlegal.2.1 hlegal.2.2.1 hext hsep
  have hpos := hlegal.1
  have hafter : FirstSound held free ⟨t, ⟨off.toNat, size, align⟩ :: w.live⟩ := by
    refine first_step hmax hs hlegal trivial trivial ?_
    rw [perform, halloc, if_neg (not_lt.mpr hoff)]
  rw [halloc] at hend
  cases hend with
  | full hint result covers =>
    cases result
    exact absurd hoff (by decide)
  | apart A B x hint isLast head parts fits gap taken =>
    obtain ⟨htail, htail'⟩ := tailOf_bounds fits.le
    have hentries := taken.entries
    have hfree := taken.freeSize
    have hoffset := taken.offset
    dsimp only at hentries hfree hoffset
    generalize hrest : tailOf x head size = rest at htail htail' hentries hfree
    generalize hb : x - (head : ℤ) - rest = b at hentries hfree
    have hbpos : 0 < b := by
      rw [← hb]
      omega
    obtain ⟨hone, hsum⟩ := optionalBlock_atMostOne (Int.natCast_nonneg head)
    obtain ⟨hone', hsum'⟩ := optionalBlock_atMostOne htail
    rw [← List.append_assoc] at hentries
    have hL : extent (A ++ optionalBlock head) = off.toNat := by
      rw [extent_append, extent_optional, Int.natAbs_natCast]
      omega
    rw [gap, ← hL]
    by_cases hpast : PastNothing t (.free (extent (A ++ optionalBlock head)))
    · have hfind := first_release hafter hentries hpast
      dsimp only at hfind
      have hmap := map_of_entries hentries
      have hsize := pcpuFreeArea_freeSize t (extent (A ++ optionalBlock head))
      rw [hfind, hmap] at hsize
      refine ⟨⟨fun _ => ⟨rfl, hpast⟩, fun _ => by rw [hsize, hfree]; omega⟩, fun _ _ hmoves v => ?_⟩
      obtain ⟨A', P, Q, B', hA, hQ, hr⟩ := pcpuFreeArea_released hentries hfind hmoves
      rw [released_freeAt hr (by omega), ← hA, ← hQ, neg_neg, ← freeAt_merged hone hone' hbpos.le,
        hsum, hsum', parts]
      have hx : (head : ℤ) + b + rest = x := by omega
      rw [hx]
    · refine ⟨⟨fun hsame => ?_, fun h => absurd h.2 hpast⟩, fun _ h => absurd h hpast⟩
      have hzero : extent (A ++ optionalBlock head) = 0 ∧ t.map 0 = 0 := not_not.mp hpast
      have hfind : findBlock t 0 0 0 t.mapUsed = 0 := by
        cases t.mapUsed with
        | zero => rfl
        | succ n => rw [findBlock, if_pos rfl]
      rw [pcpuFreeArea_freeSize, hzero.1, hfind, hzero.2, hfree] at hsame
      omega
  | absorbed A B p x hint isLast head parts held' fits gap pos taken =>
    have hle := fits.le
    have hfit : 0 + (size : ℤ) ≤ x - head := by omega
    obtain ⟨htail, htail'⟩ := tailOf_bounds hfit
    have hentries := taken.entries
    have hfree := taken.freeSize
    have hoffset := taken.offset
    rw [(absorb_entries (head : ℤ) held' parts).2.1] at hfree
    dsimp only at hentries hfree hoffset
    generalize tailOf (x - head) 0 size = rest at htail htail' hentries hfree
    have hnone : optionalBlock 0 = [] := if_neg (not_not.mpr rfl)
    rw [hnone, List.nil_append] at hentries
    have hL : extent (A ++ [p - (head : ℤ)]) = off.toNat := by omega
    have hne : extent (A ++ [p - (head : ℤ)]) ≠ 0 := by
      rw [extent_append, extent_cons]
      omega
    have hpast : PastNothing t (.free (extent (A ++ [p - (head : ℤ)]))) := fun h => hne h.1
    have hfind := first_release hafter hentries hpast
    dsimp only at hfind
    have hmap := map_of_entries hentries
    have hsize := pcpuFreeArea_freeSize t (extent (A ++ [p - (head : ℤ)]))
    rw [hfind, hmap] at hsize
    rw [gap, ← hL]
    refine ⟨⟨fun hsame => ?_, fun h => Bool.noConfusion h.1⟩, fun h => Bool.noConfusion h⟩
    rw [hsize, hfree] at hsame
    omega

/-- The first entry is the one made for the bytes held. -/
def Headed (held : ℕ) (c : PcpuChunk) : Prop := ∃ E, c.entries = -(held : ℤ) :: E

/-- Blocks before a free one start with the first entry. -/
theorem headed_append {c : PcpuChunk} {A B : List ℤ} {x : ℤ} (h : Headed held c)
    (he : c.entries = A ++ x :: B) (hx : 0 < x) : ∃ A', A = -(held : ℤ) :: A' := by
  obtain ⟨E, hE⟩ := h
  rw [hE] at he
  cases A with
  | nil =>
    rw [List.nil_append, List.cons.injEq] at he
    omega
  | cons y A =>
    rw [List.cons_append, List.cons.injEq] at he
    exact ⟨A, by rw [he.1]⟩

/-- An allocation without a small gap leaves the first entry. -/
theorem alloc_headed (hs : FirstSound held free w) (hmax : held + free + pageSize ≤ 2 ^ 31)
    {size align : ℕ} (hlegal : Legal w (.alloc size align))
    (hgap : smallHead size align 0 w.chunk.entries = false) (hhead : Headed held w.chunk) :
    Headed held (pcpuAllocArea w.chunk size align).2 := by
  obtain ⟨hext, hsep⟩ := first_map hs hmax
  have hend := pcpuAllocArea_ends hlegal.1 hlegal.2.1 hlegal.2.2.1 hext hsep
  generalize pcpuAllocArea w.chunk size align = r at hend ⊢
  cases hend with
  | full hint result covers =>
    rw [result]
    exact hhead
  | apart A B x hint isLast head parts fits gap taken =>
    obtain ⟨A', hA⟩ := headed_append hhead parts fits.free
    have hentries := taken.entries
    rw [hA, List.cons_append] at hentries
    exact ⟨_, hentries⟩
  | absorbed A B p x hint isLast head parts held' fits gap pos taken =>
    rw [hgap] at gap
    exact Bool.noConfusion gap

/-- A release leaves the first entry. -/
theorem free_headed (hs : FirstSound held free w) {freeme : ℕ} (hlegal : Legal w (.free freeme))
    (hmoves : MovesRight w.chunk (.free freeme)) (hpast : PastNothing w.chunk (.free freeme))
    (hhead : Headed held w.chunk) : Headed held (pcpuFreeArea w.chunk freeme) := by
  obtain ⟨L, R, x, he, hneg, hoff, hne, hfind⟩ := hs.found hlegal hpast
  obtain ⟨A, P, Q, B, hL, hR, hr⟩ := pcpuFreeArea_released he hfind hmoves
  obtain ⟨E, hE⟩ := hhead
  have hfirst : ∃ L', L = -(held : ℤ) :: L' := by
    cases L with
    | nil => exact absurd hoff.symm hne
    | cons y L =>
      rw [hE, List.cons_append, List.cons.injEq] at he
      exact ⟨L, by rw [he.1]⟩
  obtain ⟨L', hL'⟩ := hfirst
  cases A with
  | nil =>
    rw [List.nil_append] at hL
    rcases hr.before with ⟨hnil, _⟩ | ⟨p, hp, hpos⟩
    · rw [hL', hnil] at hL
      cases hL
    · rw [hp] at hL
      rw [hL', List.cons.injEq] at hL
      rw [hL', hL.2, extent_cons, extent_nil] at hoff
      omega
  | cons y A =>
    rw [hL', List.cons_append, List.cons.injEq] at hL
    have hentries := hr.entries
    rw [← hL.1, List.cons_append] at hentries
    exact ⟨_, hentries⟩

/-- One operation that meets nothing keeps the first chunk as it is to be. -/
theorem undo_step (hmax : held + free + pageSize ≤ 2 ^ 31) (op : ChunkOp)
    (hinv : FirstSound held free w ∧ Headed held w.chunk) (hmeets : Meets w op) :
    ∃ t, perform w op = some t ∧ FirstSound held free t ∧ Headed held t.chunk := by
  obtain ⟨hs, hhead⟩ := hinv
  cases op with
  | alloc size align =>
    exact ⟨_, rfl, first_step hmax hs hmeets.1 trivial trivial rfl,
      alloc_headed hs hmax hmeets.1 hmeets.2 hhead⟩
  | free freeme =>
    exact ⟨_, rfl, first_step hmax hs hmeets.1 hmeets.2.1 hmeets.2.2 rfl,
      free_headed hs hmeets.1 hmeets.2.1 hmeets.2.2 hhead⟩
  | extend newAlloc succeeds =>
    have hroom : w.chunk.mapUsed ≤ w.chunk.mapAlloc := by
      cases hs with
      | nothing none entries room sound => exact room
      | something pos sound => exact sound.room
    obtain ⟨E, hE⟩ := hhead
    have hlegal : Legal w (.extend newAlloc succeeds) := trivial
    exact ⟨_, rfl, first_step hmax hs hlegal trivial trivial rfl,
      E, (extend_entries hroom newAlloc succeeds).1.trans hE⟩

/-- Without a live area the first chunk has its first `free_size` and free bytes. -/
theorem first_idle (hs : FirstSound held free w) (hhead : Headed held w.chunk)
    (hlive : w.live = []) : w.chunk.freeSize = free ∧
      ∀ b, FreeAt 0 w.chunk.entries b ↔ held ≤ b ∧ b < held + free := by
  cases hs with
  | nothing none entries room sound =>
    have hstarts := sound.starts
    simp only [hlive, List.map_nil, List.nil_perm] at hstarts
    have hfree := free_of_heldStarts sound.nonzero hstarts
    have hext : extent (tailChunk w.chunk).entries = free := sound.extent
    have hsize : w.chunk.freeSize = freeSum (tailChunk w.chunk).entries := sound.freeSize
    refine ⟨by rw [hsize, freeSum_of_free hfree, hext], fun b => ?_⟩
    rw [tail_entries entries, FreeAt, Int.natAbs_zero, freeAt_of_free hfree, hext, none]
    simp only [lt_irrefl, false_and, false_or]
  | something pos sound =>
    obtain ⟨E, hE⟩ := hhead
    have hneg : -(held : ℤ) < 0 := by omega
    have hstarts := sound.starts
    have hext : extent w.chunk.entries = held + free := sound.extent
    have hsize : w.chunk.freeSize = freeSum w.chunk.entries := sound.freeSize
    have hnonzero := sound.nonzero
    simp only [hlive, List.nil_append, List.map_cons, List.map_nil] at hstarts
    dsimp only at hnonzero
    rw [hE, heldStarts_cons_held 0 E hneg, List.perm_cons, List.nil_perm] at hstarts
    rw [hE] at hnonzero hext hsize
    rw [extent_cons, Int.natAbs_neg, Int.natAbs_natCast] at hext
    have hfree := free_of_heldStarts (fun x hx => hnonzero x (List.mem_cons_of_mem _ hx)) hstarts
    have hE' : extent E = free := by omega
    refine ⟨?_, fun b => ?_⟩
    · rw [hsize, freeSum_cons, freeSum_of_free hfree, hE']
      omega
    · rw [hE, FreeAt, Int.natAbs_neg, Int.natAbs_natCast, freeAt_of_free hfree, hE', Nat.zero_add]
      have hnot : ¬(0 < -(held : ℤ)) := by omega
      simp only [hnot, false_and, false_or]

/-- Over every run of the first chunk that meets no small gap, no wrong move and no release at
offset zero behind an entry of no bytes, a release right after an allocation undoes it, and with all
areas released the chunk has its first `free_size` and free bytes. -/
theorem history_undoes {ai : PcpuAllocInfo} (h : Accepted ai) (ops : List ChunkOp)
    (hrun : Admissible perform Meets ⟨pcpuFirstChunk ai, []⟩ ops) :
    ∃ w, exec perform ⟨pcpuFirstChunk ai, []⟩ ops = some w ∧
      (∀ size align, Legal w (.alloc size align) → Undoes w.chunk size align) ∧
      (w.live = [] → w.chunk.freeSize = (pcpuFirstChunk ai).freeSize ∧
        ∀ b, FreeAt 0 w.chunk.entries b ↔ FreeAt 0 (pcpuFirstChunk ai).entries b) := by
  have hroom := h.room
  have hint := h.int
  have hmax : ai.heldSize + ai.dynSize + pageSize ≤ 2 ^ 31 := by
    rw [PcpuAllocInfo.heldSize]
    omega
  have hstart : Headed ai.heldSize (pcpuFirstChunk ai) := ⟨_, pcpuFirstChunk_entries h⟩
  obtain ⟨w, he, hs, hhead⟩ := exec_total
    (fun (w : ChunkWorld) op (hinv : FirstSound ai.heldSize ai.dynSize w ∧
      Headed ai.heldSize w.chunk) hmeets => undo_step hmax op hinv hmeets)
    ⟨pcpuFirstChunk_sound h, hstart⟩ hrun
  refine ⟨w, he, fun size align hlegal => first_undoes hs hmax hlegal, fun hlive => ?_⟩
  obtain ⟨hsize, hbytes⟩ := first_idle hs hhead hlive
  obtain ⟨hsize', hbytes'⟩ := first_idle (pcpuFirstChunk_sound h) hstart rfl
  dsimp only at hsize' hbytes'
  exact ⟨hsize.trans hsize'.symm, fun b => (hbytes b).trans (hbytes' b).symm⟩

/-- Static bytes, and areas that are released in another order. -/
def staticInfo : PcpuAllocInfo := ⟨64, 0, 32704, 32768⟩

/-- The operations on it. -/
def mixedRun : List ChunkOp :=
  [.alloc 8 4, .alloc 100 64, .extend 256 true, .alloc 3 4, .free 64, .free 72, .free 128]

/-- The run meets none of the three. -/
theorem history_undoes_mixed :
    ∃ w, exec perform ⟨pcpuFirstChunk staticInfo, []⟩ mixedRun = some w ∧
      (∀ size align, Legal w (.alloc size align) → Undoes w.chunk size align) ∧
      (w.live = [] → w.chunk.freeSize = (pcpuFirstChunk staticInfo).freeSize ∧
        ∀ b, FreeAt 0 w.chunk.entries b ↔ FreeAt 0 (pcpuFirstChunk staticInfo).entries b) :=
  @history_undoes staticInfo
    ⟨by decide, by decide, by decide, by decide, by decide⟩ mixedRun (by decide +kernel)

/-- No static or reserved bytes, as `setup_per_cpu_areas` asks for. -/
def bareInfo : PcpuAllocInfo := ⟨0, 0, 32768, 32768⟩

/-- The first area starts at offset zero and its release frees nothing. -/
theorem bareInfo_counterexample : Accepted bareInfo ∧
    Admissible perform Legal ⟨pcpuFirstChunk bareInfo, []⟩ [.alloc 16 4, .free 0] ∧
    (pcpuAllocArea (pcpuFirstChunk bareInfo) 16 4).1 = 0 ∧
    (pcpuFreeArea (pcpuAllocArea (pcpuFirstChunk bareInfo) 16 4).2 0).freeSize = 32752 ∧
    (pcpuFirstChunk bareInfo).freeSize = 32768 := by
  refine ⟨⟨by decide, by decide, by decide, by decide, by decide⟩, ?_⟩
  decide +kernel

end BiscuitOS.PercpuUndo
