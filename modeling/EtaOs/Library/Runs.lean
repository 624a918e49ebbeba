import Mathlib.Logic.Function.Iterate
import Mathlib.Logic.Relation

/-!
# Runs and invariants

A run of a step relation is a chain of steps.  What every step preserves, every run
preserves; that is the only induction on runs this development makes.

It is kept apart from the systems it is used for: a safety statement is then an invariant, one
lemma for a step, and this rule.
-/

namespace Runs

open Relation

variable {σ : Type*} {step : σ → σ → Prop} {P : σ → Prop} {s t : σ}

/-- **Invariant rule for runs.** -/
theorem invariant (hstep : ∀ s t, step s t → P s → P t) (hrun : ReflTransGen step s t) (hs : P s) :
    P t := by
  induction hrun with
  | refl => exact hs
  | tail _ hlast ih => exact hstep _ _ hlast ih

/-- The invariant rule for a run whose steps are taken one by one from a list. -/
theorem foldl_invariant {ι : Type*} {f : σ → ι → σ} (hstep : ∀ s i, P s → P (f s i)) (l : List ι)
    (hs : P s) : P (l.foldl f s) := by
  induction l generalizing s with
  | nil => exact hs
  | cons i l ih => exact ih (hstep s i hs)

/-- **Exact rule for runs taken from a list.**  When one step keeps `P` exactly under the
condition `C`, a run keeps it exactly when every step meets the condition. -/
theorem foldl_iff {ι : Type*} {f : σ → ι → σ} {C : σ → ι → Prop}
    (hstep : ∀ s i, P (f s i) ↔ P s ∧ C s i) (l : List ι) (s : σ) :
    P (l.foldl f s) ↔ P s ∧ ∀ pre i post, l = pre ++ i :: post → C (pre.foldl f s) i := by
  induction l generalizing s with
  | nil => exact (and_iff_left fun pre i post h => absurd h.symm (by simp)).symm
  | cons i l ih =>
      rw [List.foldl_cons, ih, hstep, and_assoc]
      refine and_congr_right fun _ => ⟨?_, ?_⟩
      · rintro ⟨hi, hl⟩ pre j post h
        cases pre with
        | nil =>
            obtain ⟨rfl, rfl⟩ := List.cons.inj h
            exact hi
        | cons i' pre =>
            obtain ⟨rfl, hl'⟩ := List.cons.inj h
            exact hl pre j post hl'
      · intro h
        refine ⟨h [] i l rfl, fun pre j post hl => h (i :: pre) j post ?_⟩
        rw [hl, List.cons_append]

/-- The iterates of a function that makes steps are a run. -/
theorem iterate {f : σ → σ} (hf : ∀ s, step s (f s)) (n : ℕ) (s : σ) :
    ReflTransGen step s (f^[n] s) := by
  induction n with
  | zero => exact ReflTransGen.refl
  | succ n ih =>
      rw [Function.iterate_succ_apply']
      exact ih.tail (hf _)

end Runs
