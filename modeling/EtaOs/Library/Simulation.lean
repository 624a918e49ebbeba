import Mathlib.Data.Nat.Init

/-!
# Simulation of labelled steps

Two step relations carry the same labels.  The first is simulated by the second along a
relation of their states when every step from related states can be answered by a step with
the same label to related states.  Then every run is answered by a run with the same labels.

The simulation may rest on a property of the states that is read off the end of a run and
holds all along it, such as that nothing has run out.

* `Steps`: a run, with the list of its labels.
* `Steps.descend`: a run to the end, when every step on the way decreases a measure.
* `Steps.backwards`: a property that goes backwards along a step goes backwards along a run.
* `Steps.simulate`: the simulation of runs.
* `Steps.invariant`, `Steps.moves`: what every step keeps, and a preorder by which it moves.
* `Beside`: two systems side by side; `Steps.of_beside`, their runs.
-/

namespace Simulation

variable {σ τ ι : Type*} {step : σ → ι → σ → Prop} {answer : τ → ι → τ → Prop}
  {R : σ → τ → Prop} {Good : σ → Prop} {s u : σ} {t : τ} {l : List ι}

/-- A run: steps with these labels, one after the other. -/
inductive Steps (step : σ → ι → σ → Prop) : σ → List ι → σ → Prop
  | nil (s : σ) : Steps step s [] s
  | cons (s s' u : σ) (i : ι) (l : List ι) (hstep : step s i s') (hrun : Steps step s' l u) :
      Steps step s (i :: l) u

theorem Steps.single {i : ι} (h : step s i u) : Steps step s [i] u :=
  Steps.cons s u u i [] h (Steps.nil u)

theorem Steps.nil_iff : Steps step s [] u ↔ s = u := by
  constructor
  · intro hrun
    cases hrun
    rfl
  · rintro rfl
    exact Steps.nil s

theorem Steps.cons_iff {i : ι} :
    Steps step s (i :: l) u ↔ ∃ s', step s i s' ∧ Steps step s' l u := by
  constructor
  · intro hrun
    cases hrun with
    | cons _ s' _ _ _ hstep hrun => exact ⟨s', hstep, hrun⟩
  · rintro ⟨s', hstep, hrun⟩
    exact Steps.cons s s' u i l hstep hrun

theorem Steps.append {l' : List ι} {w : σ} (hrun : Steps step s l u) (hrun' : Steps step u l' w) :
    Steps step s (l ++ l') w := by
  induction hrun with
  | nil s => exact hrun'
  | cons s s' u i l hstep _ ih => exact Steps.cons s s' w i (l ++ l') hstep (ih hrun')

/-- A run of one relation is a run of every relation with more steps. -/
theorem Steps.mono {step' : σ → ι → σ → Prop} (h : ∀ s i s', step s i s' → step' s i s')
    (hrun : Steps step s l u) : Steps step' s l u := by
  induction hrun with
  | nil s => exact Steps.nil s
  | cons s s' u i l hstep _ ih => exact Steps.cons s s' u i l (h s i s' hstep) ih

/-- **Progress rule.**  When a step that decreases a measure can be made wherever the end has not
been reached, a run leads to the end. -/
theorem Steps.descend {P Done : σ → Prop} (μ : σ → ℕ)
    (hstep : ∀ s, P s → Done s ∨ ∃ i s', step s i s' ∧ P s' ∧ μ s' < μ s) (hs : P s) :
    ∃ l t, Steps step s l t ∧ P t ∧ Done t := by
  induction hn : μ s using Nat.strong_induction_on generalizing s with
  | _ n ih =>
      rcases hstep s hs with hdone | ⟨i, s', hfirst, hs', hlt⟩
      · exact ⟨[], s, Steps.nil s, hs, hdone⟩
      · obtain ⟨l, t, hrun, ht, hdone⟩ := ih (μ s') (hn ▸ hlt) hs' rfl
        exact ⟨i :: l, t, Steps.cons s s' t i l hfirst hrun, ht, hdone⟩

/-- A property that goes backwards along a step goes backwards along a run. -/
theorem Steps.backwards (hback : ∀ s i s', step s i s' → Good s' → Good s)
    (hrun : Steps step s l u) (hgood : Good u) : Good s := by
  induction hrun with
  | nil s => exact hgood
  | cons s s' u i l hstep _ ih => exact hback s i s' hstep (ih hgood)

/-- **Simulation rule.**  What the steps can be answered by, the runs can be answered by. -/
theorem Steps.simulate (hback : ∀ s i s', step s i s' → Good s' → Good s)
    (hsim : ∀ s t i s', R s t → step s i s' → Good s' → ∃ t', answer t i t' ∧ R s' t')
    (hrun : Steps step s l u) (hgood : Good u) (hR : R s t) :
    ∃ t', Steps answer t l t' ∧ R u t' := by
  induction hrun generalizing t with
  | nil s => exact ⟨t, Steps.nil t, hR⟩
  | cons s s' u i l hstep hrun ih =>
      obtain ⟨t₁, hanswer, hR₁⟩ := hsim s t i s' hR hstep (hrun.backwards hback hgood)
      obtain ⟨t', hrun', hR'⟩ := ih hgood hR₁
      exact ⟨t', Steps.cons t t₁ t' i l hanswer hrun', hR'⟩

/-- **Invariant rule** for runs with labels. -/
theorem Steps.invariant {P : σ → Prop} (hback : ∀ s i s', step s i s' → Good s' → Good s)
    (hstep : ∀ s i s', P s → step s i s' → Good s' → P s') (hrun : Steps step s l u)
    (hgood : Good u) (hs : P s) : P u := by
  induction hrun with
  | nil s => exact hs
  | cons s s' u i l hfirst hrun ih =>
      exact ih hgood (hstep s i s' hs hfirst (hrun.backwards hback hgood))

/-- A preorder that relates the ends of every step relates the ends of every run. -/
theorem Steps.moves {M : σ → σ → Prop} (hrefl : ∀ s, M s s)
    (htrans : ∀ s t u, M s t → M t u → M s u) (hstep : ∀ s i s', step s i s' → M s s')
    (hrun : Steps step s l u) : M s u := by
  induction hrun with
  | nil s => exact hrefl s
  | cons s s' u i l hfirst _ ih => exact htrans s s' u (hstep s i s' hfirst) ih

/-! ## Two systems side by side -/

/-- A step of one of two systems. -/
inductive Beside {κ : Type*} (step : σ → ι → σ → Prop) (other : τ → κ → τ → Prop) :
    σ × τ → ι ⊕ κ → σ × τ → Prop
  | left (s s' : σ) (t : τ) (i : ι) (h : step s i s') :
      Beside step other (s, t) (Sum.inl i) (s', t)
  | right (s : σ) (t t' : τ) (i : κ) (h : other t i t') :
      Beside step other (s, t) (Sum.inr i) (s, t')

/-- **A run of two systems side by side** is a run of each. -/
theorem Steps.of_beside {κ : Type*} {other : τ → κ → τ → Prop} {p q : σ × τ} {l : List (ι ⊕ κ)}
    (hrun : Steps (Beside step other) p l q) :
    Steps step p.1 (l.filterMap Sum.getLeft?) q.1 ∧
      Steps other p.2 (l.filterMap Sum.getRight?) q.2 := by
  induction hrun with
  | nil p => exact ⟨Steps.nil p.1, Steps.nil p.2⟩
  | cons p p' q i l hstep _ ih =>
      obtain ⟨hleft, hright⟩ := ih
      cases hstep with
      | left s s' t i h => exact ⟨Steps.cons _ _ _ _ _ h hleft, hright⟩
      | right s t t' i h => exact ⟨hleft, Steps.cons _ _ _ _ _ h hright⟩

end Simulation
