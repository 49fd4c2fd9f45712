import Mathlib

/-!
# Walking a range piece by piece

The do-while loops of page-table code: from the start of a range, visit the
piece up to the next boundary, step to the next entry, and go on until the end
of the range is met. A visit may stop the walk with an error code. The rule
carries an invariant from the start of the range to its end, however many
pieces there are.
-/

namespace BiscuitOS.RangeWalk

variable {σ : Type*}

/-- Visit the pieces of the range from `addr` to `fin`, whose entries lie `step` apart, until
a visit gives a code other than zero; nothing while pieces are left when the fuel is spent. -/
def walk (step : ℕ) (pieceEnd : ℕ → ℕ → ℕ) (visit : σ → ℕ → ℕ → ℕ → Option (ℤ × σ)) (fin : ℕ) :
    ℕ → σ → ℕ → ℕ → Option (ℤ × σ)
  | 0, _, _, _ => none
  | fuel + 1, s, entry, addr =>
    (visit s entry addr (pieceEnd addr fin)).bind fun r =>
      if r.1 ≠ 0 then some r
      else if pieceEnd addr fin = fin then some r
      else walk step pieceEnd visit fin fuel r.2 (entry + step) (pieceEnd addr fin)

/-- What one visit does: its piece lies in the range, the entry behind is that of the next
piece, its code is one of a given set, and an error aside the invariant passes to the end of the
piece. -/
structure Visits (step : ℕ) (pieceEnd : ℕ → ℕ → ℕ) (visit : σ → ℕ → ℕ → ℕ → Option (ℤ × σ))
    (entry : ℕ → ℕ) (fin : ℕ) (codes : Set ℤ) (inv : ℕ → σ → Prop) (addr : ℕ) (s : σ) : Prop where
  /-- The piece is not empty. -/
  lt : addr < pieceEnd addr fin
  /-- It ends in the range. -/
  le : pieceEnd addr fin ≤ fin
  /-- The next entry. -/
  next : pieceEnd addr fin ≠ fin → entry (pieceEnd addr fin) = entry addr + step
  /-- The visit returns. -/
  done : ∃ r, visit s (entry addr) addr (pieceEnd addr fin) = some r ∧
    r.1 ∈ codes ∧ (r.1 = 0 → inv (pieceEnd addr fin) r.2)

/-- A walk returns what its last visit returned: as long as visits give zero the invariant passes
from piece to piece, and every result has the postcondition. -/
theorem walk_run {step : ℕ} {pieceEnd : ℕ → ℕ → ℕ} {visit : σ → ℕ → ℕ → ℕ → Option (ℤ × σ)}
    {entry : ℕ → ℕ} {fin : ℕ} {post : ℤ × σ → Prop} {inv : ℕ → σ → Prop}
    (hrange : ∀ addr s, addr < fin → inv addr s → addr < pieceEnd addr fin ∧ pieceEnd addr fin ≤ fin ∧
      (pieceEnd addr fin ≠ fin → entry (pieceEnd addr fin) = entry addr + step))
    (hvisit : ∀ addr s, addr < fin → inv addr s →
      ∃ r, visit s (entry addr) addr (pieceEnd addr fin) = some r ∧ post r ∧
        (r.1 = 0 → inv (pieceEnd addr fin) r.2))
    (fuel : ℕ) (s : σ) (addr : ℕ) (hfuel : fin - addr ≤ fuel) (hlt : addr < fin)
    (hinv : inv addr s) :
    ∃ r, walk step pieceEnd visit fin fuel s (entry addr) addr = some r ∧ post r ∧
      (r.1 = 0 → inv fin r.2) := by
  induction fuel generalizing s addr with
  | zero => omega
  | succ fuel ih =>
    obtain ⟨hin, hend, hnext⟩ := hrange addr s hlt hinv
    obtain ⟨r, hrun, hpost, hkeep⟩ := hvisit addr s hlt hinv
    rw [walk, hrun, Option.bind_some]
    by_cases herr : r.1 ≠ 0
    · rw [if_pos herr]
      exact ⟨r, rfl, hpost, fun h => absurd h herr⟩
    · have hzero : r.1 = 0 := not_not.mp herr
      rw [if_neg herr]
      by_cases hlast : pieceEnd addr fin = fin
      · rw [if_pos hlast]
        have hdone := hkeep hzero
        rw [hlast] at hdone
        exact ⟨r, rfl, hpost, fun _ => hdone⟩
      · rw [if_neg hlast, ← hnext hlast]
        exact ih r.2 (pieceEnd addr fin) (by omega) (by omega) (hkeep hzero)

/-- A walk over one piece is its visit. -/
theorem walk_one {step : ℕ} {pieceEnd : ℕ → ℕ → ℕ} {visit : σ → ℕ → ℕ → ℕ → Option (ℤ × σ)}
    {fin addr : ℕ} (hlt : addr < fin) (hone : pieceEnd addr fin = fin) (s : σ) (entry : ℕ) :
    walk step pieceEnd visit fin (fin - addr) s entry addr = visit s entry addr fin := by
  obtain ⟨n, hn⟩ : ∃ n, fin - addr = n + 1 := ⟨fin - addr - 1, by omega⟩
  rw [hn, walk, hone]
  cases visit s entry addr fin with
  | none => rfl
  | some r => rw [Option.bind_some, if_pos rfl, ite_self]

/-- A walk whose visits keep an invariant returns, and without an error the invariant holds at
the end of the range. -/
theorem walk_spec {step : ℕ} {pieceEnd : ℕ → ℕ → ℕ} {visit : σ → ℕ → ℕ → ℕ → Option (ℤ × σ)}
    {entry : ℕ → ℕ} {fin : ℕ} {codes : Set ℤ} {inv : ℕ → σ → Prop}
    (hvisit : ∀ addr s, addr < fin → inv addr s →
      Visits step pieceEnd visit entry fin codes inv addr s)
    (fuel : ℕ) (s : σ) (addr : ℕ) (hfuel : fin - addr ≤ fuel) (hlt : addr < fin)
    (hinv : inv addr s) :
    ∃ r, walk step pieceEnd visit fin fuel s (entry addr) addr = some r ∧ r.1 ∈ codes ∧
      (r.1 = 0 → inv fin r.2) :=
  @walk_run _ _ _ _ _ _ (fun r => r.1 ∈ codes) _
    (fun a u ha hu => ⟨(hvisit a u ha hu).lt, (hvisit a u ha hu).le, (hvisit a u ha hu).next⟩)
    (fun a u ha hu => (hvisit a u ha hu).done) fuel s addr hfuel hlt hinv

end BiscuitOS.RangeWalk
