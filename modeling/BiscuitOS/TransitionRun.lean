import Mathlib

/-!
# Runs of labelled steps

A component is a partial step function on states, labelled by the operation
performed. The run rules carry an invariant along every admissible list of
operations, once for steps known to return and once for steps that may fail
to return.
-/

namespace BiscuitOS.TransitionRun

variable {σ α : Type*}

/-- Execute the operations in order; no state remains once a step does not return. -/
def exec (step : σ → α → Option σ) : σ → List α → Option σ
  | s, [] => some s
  | s, a :: as => (step s a).bind fun t => exec step t as

/-- Every operation is allowed in the state in which it is performed. -/
def Admissible (step : σ → α → Option σ) (ok : σ → α → Prop) : σ → List α → Prop
  | _, [] => True
  | s, a :: as => ok s a ∧ ∀ t, step s a = some t → Admissible step ok t as

/-- Admissibility of a run is decided by performing it. -/
instance decidableAdmissible (step : σ → α → Option σ) (ok : σ → α → Prop)
    [∀ s a, Decidable (ok s a)] : ∀ s as, Decidable (Admissible step ok s as)
  | _, [] => isTrue trivial
  | s, a :: as =>
    have : Decidable (∀ t, step s a = some t → Admissible step ok t as) :=
      match step s a with
      | none => isTrue fun _ ht => (by cases ht)
      | some u =>
        match decidableAdmissible step ok u as with
        | isTrue hu => isTrue fun _ ht => Option.some.inj ht ▸ hu
        | isFalse hu => isFalse fun h => hu (h u rfl)
    inferInstanceAs (Decidable (ok s a ∧ ∀ t, step s a = some t → Admissible step ok t as))

variable {step : σ → α → Option σ} {ok : σ → α → Prop} {inv : σ → Prop}

/-- Running two lists in a row is running their concatenation. -/
theorem exec_append (s : σ) (as bs : List α) :
    exec step s (as ++ bs) = (exec step s as).bind fun t => exec step t bs := by
  induction as generalizing s with
  | nil => rfl
  | cons a as ih =>
    simp only [List.cons_append, exec]
    cases step s a with
    | none => rfl
    | some t => simpa only [Option.bind_some] using ih t

/-- Admissibility passes to every prefix, so a run statement covers each intermediate state. -/
theorem Admissible.prefix {s : σ} {as bs : List α} (h : Admissible step ok s (as ++ bs)) :
    Admissible step ok s as := by
  induction as generalizing s with
  | nil => trivial
  | cons a as ih => exact ⟨h.1, fun t ht => ih (h.2 t ht)⟩

/-- What follows a prefix is admissible from the state the prefix reaches. -/
theorem Admissible.suffix {s t : σ} {as bs : List α} (h : Admissible step ok s (as ++ bs))
    (he : exec step s as = some t) : Admissible step ok t bs := by
  induction as generalizing s with
  | nil =>
    cases he
    exact h
  | cons a as ih =>
    rw [exec, Option.bind_eq_some_iff] at he
    obtain ⟨u, hu, hrest⟩ := he
    exact ih (h.2 u hu) hrest

/-- Admissible runs in a row. -/
theorem Admissible.append {s : σ} {as bs : List α} (h : Admissible step ok s as)
    (hrest : ∀ t, exec step s as = some t → Admissible step ok t bs) :
    Admissible step ok s (as ++ bs) := by
  induction as generalizing s with
  | nil => exact hrest s rfl
  | cons a as ih =>
    refine ⟨h.1, fun u hu => ih (h.2 u hu) fun t ht => hrest t ?_⟩
    rw [exec, hu, Option.bind_some, ht]

/-- Admissibility may be weakened pointwise. -/
theorem Admissible.mono {ok' : σ → α → Prop} (hok : ∀ s a, ok s a → ok' s a)
    {s : σ} {as : List α} (h : Admissible step ok s as) : Admissible step ok' s as := by
  induction as generalizing s with
  | nil => trivial
  | cons a as ih => exact ⟨hok s a h.1, fun t ht => ih (h.2 t ht)⟩

/-- Admissibility by two conditions. -/
theorem Admissible.and {ok' : σ → α → Prop} {s : σ} {as : List α} (h : Admissible step ok s as)
    (h' : Admissible step ok' s as) : Admissible step (fun s a => ok s a ∧ ok' s a) s as := by
  induction as generalizing s with
  | nil => trivial
  | cons a as ih => exact ⟨⟨h.1, h'.1⟩, fun t ht => ih (h.2 t ht) (h'.2 t ht)⟩

/-- Steps that return and refine an abstract step make every admissible run return and
refine the abstract run. -/
theorem exec_refines {β : Type*} (spec : β → α → β) (refines : σ → β → Prop)
    (hstep : ∀ s b a, refines s b → ok s a → ∃ t, step s a = some t ∧ refines t (spec b a))
    {s : σ} {b : β} {as : List α} (hs : refines s b) (ha : Admissible step ok s as) :
    ∃ t, exec step s as = some t ∧ refines t (as.foldl spec b) := by
  induction as generalizing s b with
  | nil => exact ⟨s, rfl, hs⟩
  | cons a as ih =>
    obtain ⟨t, ht, hi⟩ := hstep s b a hs ha.1
    obtain ⟨u, hu, hj⟩ := ih hi (ha.2 t ht)
    exact ⟨u, by rw [exec, ht, Option.bind_some, hu], hj⟩

/-- Steps that return and keep the invariant make every admissible run return and keep it. -/
theorem exec_total (hstep : ∀ s a, inv s → ok s a → ∃ t, step s a = some t ∧ inv t)
    {s : σ} {as : List α} (hs : inv s) (ha : Admissible step ok s as) :
    ∃ t, exec step s as = some t ∧ inv t := by
  obtain ⟨t, ht, hi⟩ := exec_refines (fun (u : Unit) _ => u) (fun s _ => inv s)
    (fun s _ a hi hok => hstep s a hi hok) (b := ()) hs ha
  exact ⟨t, ht, hi⟩

/-- Steps that refine an abstract step whenever they return make every returning run refine the
abstract run. -/
theorem exec_tracks {β : Type*} (spec : β → α → β) (refines : σ → β → Prop)
    (hstep : ∀ s b a t, refines s b → ok s a → step s a = some t → refines t (spec b a))
    {s t : σ} {b : β} {as : List α} (hs : refines s b) (ha : Admissible step ok s as)
    (he : exec step s as = some t) : refines t (as.foldl spec b) := by
  induction as generalizing s b with
  | nil =>
    cases he
    exact hs
  | cons a as ih =>
    rw [exec, Option.bind_eq_some_iff] at he
    obtain ⟨u, hu, hrest⟩ := he
    exact ih (hstep s b a u hs ha.1 hu) (ha.2 u hu) hrest

/-- Steps that keep the invariant whenever they return keep it along every returning run. -/
theorem exec_preserves (hstep : ∀ s a t, inv s → ok s a → step s a = some t → inv t)
    {s t : σ} {as : List α} (hs : inv s) (ha : Admissible step ok s as)
    (he : exec step s as = some t) : inv t :=
  exec_tracks (fun (u : Unit) _ => u) (fun s _ => inv s) (fun s _ a t hi hok h => hstep s a t hi hok h)
    (b := ()) hs ha he

/-- The same when every step keeps the invariant. -/
theorem exec_invariant (hstep : ∀ s a t, inv s → step s a = some t → inv t) {s t : σ} {as : List α}
    (hs : inv s) (he : exec step s as = some t) : inv t := by
  refine @exec_preserves _ _ _ (fun _ _ => True) _ (fun s a t hi _ h => hstep s a t hi h) _ _ _ hs ?_ he
  clear hs he
  induction as generalizing s with
  | nil => trivial
  | cons a as ih => exact ⟨trivial, fun _ _ => ih⟩

/-- A condition under which steps keep an invariant and without which they lose what it gives is
met along a run exactly when every state of the run has what the invariant gives. -/
theorem admissible_iff_along {meets : σ → α → Prop} {good : σ → Prop}
    (hgood : ∀ s, inv s → good s)
    (hkeep : ∀ s a, inv s → ok s a → meets s a → ∃ t, step s a = some t ∧ inv t)
    (hlose : ∀ s a t, inv s → ok s a → ¬ meets s a → step s a = some t → ¬ good t)
    {s : σ} {as : List α} (hs : inv s) (ha : Admissible step ok s as) :
    Admissible step meets s as ↔
      ∀ before after, as = before ++ after → ∃ t, exec step s before = some t ∧ good t := by
  constructor
  · rintro hm before after rfl
    obtain ⟨t, ht, hi⟩ := exec_total (fun s a hi hok => hkeep s a hi hok.1 hok.2) hs
      (Admissible.and ha.prefix hm.prefix)
    exact ⟨t, ht, hgood t hi⟩
  · intro hall
    induction as generalizing s with
    | nil => trivial
    | cons a as ih =>
      have hmeets : meets s a := by
        by_contra hnot
        obtain ⟨t, ht, hg⟩ := hall [a] as rfl
        rw [exec, Option.bind_eq_some_iff] at ht
        obtain ⟨u, hu, ht⟩ := ht
        rw [exec, Option.some.injEq] at ht
        exact hlose s a u hs ha.1 hnot hu (ht ▸ hg)
      obtain ⟨t, ht, hi⟩ := hkeep s a hs ha.1 hmeets
      refine ⟨hmeets, fun u hu => ?_⟩
      rw [ht, Option.some.injEq] at hu
      subst hu
      refine ih hi (ha.2 t ht) fun before after hsplit => ?_
      obtain ⟨v, hv, hg⟩ := hall (a :: before) after (by rw [hsplit, List.cons_append])
      rw [exec, ht, Option.bind_some] at hv
      exact ⟨v, hv, hg⟩

end BiscuitOS.TransitionRun
