import Mathlib

/-!
# Loops left by a step function

A loop is a step from a state to the next state or to the result with which
it is left. A run is bounded by fuel, so that a loop that is never left has
no result for any fuel. One rule proves that a loop ends with what its exit
promises, another that it never ends.
-/

namespace BiscuitOS.LoopRun

variable {σ ρ : Type*}

/-- Perform at most `fuel` steps; nothing when the loop is still running then. -/
def loop (step : σ → σ ⊕ ρ) : ℕ → σ → Option ρ
  | 0, _ => none
  | fuel + 1, s =>
    match step s with
    | .inl t => loop step fuel t
    | .inr r => some r

variable {step : σ → σ ⊕ ρ}

/-- A step that stays in the loop uses one unit of fuel. -/
theorem loop_inl {s t : σ} (h : step s = .inl t) (fuel : ℕ) :
    loop step (fuel + 1) s = loop step fuel t := by
  simp only [loop, h]

/-- A step that leaves the loop ends it. -/
theorem loop_inr {s : σ} {r : ρ} (h : step s = .inr r) (fuel : ℕ) :
    loop step (fuel + 1) s = some r := by
  simp only [loop, h]

/-- A result is the one of a step that leaves the loop. -/
theorem loop_left {fuel : ℕ} {s : σ} {r : ρ} (h : loop step fuel s = some r) :
    ∃ t, step t = .inr r := by
  induction fuel generalizing s with
  | zero => cases h
  | succ fuel ih =>
    cases hstep : step s with
    | inl t =>
      rw [loop_inl hstep] at h
      exact ih h
    | inr q =>
      rw [loop_inr hstep, Option.some_inj] at h
      exact ⟨s, h ▸ hstep⟩

/-- A loop that is never left from the states of an invariant has no result. -/
theorem loop_endless (inv : σ → Prop) (hstay : ∀ s, inv s → ∃ t, step s = .inl t ∧ inv t)
    (s : σ) (hs : inv s) (fuel : ℕ) : loop step fuel s = none := by
  induction fuel generalizing s with
  | zero => rfl
  | succ fuel ih =>
    obtain ⟨t, hstep, ht⟩ := hstay s hs
    rw [loop_inl hstep, ih t ht]

/-- More fuel does not change the result. -/
theorem loop_mono {fuel more : ℕ} {s : σ} {r : ρ} (h : loop step fuel s = some r)
    (hle : fuel ≤ more) : loop step more s = some r := by
  induction fuel generalizing more s with
  | zero => simp [loop] at h
  | succ fuel ih =>
    cases more with
    | zero => omega
    | succ more =>
      cases hstep : step s with
      | inl t =>
        rw [loop_inl hstep] at h ⊢
        exact ih h (by omega)
      | inr q =>
        rw [loop_inr hstep] at h ⊢
        exact h

end BiscuitOS.LoopRun
