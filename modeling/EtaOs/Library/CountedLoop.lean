import Mathlib.Data.List.Basic
import Mathlib.Tactic.Common

/-!
# Counted loops

The loop `for (i = lo; i < hi; i++)` over natural numbers.

A loop is described in two ways, by an invariant, and by what it leaves of a part of the state.
The third is for loops that only ever switch something on, such as setting marks or storing pixels:
it gives an equivalence, where an invariant would give one direction.

* `forRange`: the loop.
* `forRange_succ`, `forRange_of_le`: one more iteration, and none.
* `forRange_induction`: what every iteration preserves, the loop preserves; `forRange_eq`, a part
  of the state that no iteration changes; `forRange_hom`, a loop on a part of the state.
* `forRange_iff`: a property that iterations only switch on holds after the loop when it held
  before or some iteration switched it on.
-/

namespace CountedLoop

variable {σ : Type*} {lo hi : ℕ} {body : ℕ → σ → σ} {s : σ}

/-- `for (i = lo; i < hi; i++) body`. -/
def forRange (lo hi : ℕ) (body : ℕ → σ → σ) (s : σ) : σ :=
  (List.range' lo (hi - lo)).foldl (fun s i => body i s) s

theorem forRange_of_le (h : hi ≤ lo) : forRange lo hi body s = s := by
  rw [forRange, Nat.sub_eq_zero_of_le h]
  rfl

theorem forRange_succ (h : lo ≤ hi) :
    forRange lo (hi + 1) body s = body hi (forRange lo hi body s) := by
  have hlast : lo + (hi - lo) = hi := by omega
  rw [forRange, Nat.succ_sub h, List.range'_1_concat, hlast, List.foldl_append]
  rfl

/-- **Invariant rule.** -/
theorem forRange_induction {P : σ → Prop} (hbody : ∀ i s, lo ≤ i → i < hi → P s → P (body i s))
    (hs : P s) : P (forRange lo hi body s) := by
  induction hi with
  | zero => rwa [forRange_of_le (Nat.zero_le lo)]
  | succ n ih =>
      rcases Nat.lt_or_ge n lo with h | h
      · rwa [forRange_of_le h]
      · rw [forRange_succ h]
        exact hbody n _ h (Nat.lt_succ_self n)
          (ih fun i s hlo hi => hbody i s hlo (Nat.lt_succ_of_lt hi))

/-- A part of the state that no iteration changes. -/
theorem forRange_eq {τ : Type*} {f : σ → τ}
    (hbody : ∀ i s, lo ≤ i → i < hi → f (body i s) = f s) : f (forRange lo hi body s) = f s :=
  forRange_induction (P := fun s' => f s' = f s)
    (fun i s' hlo hi hs' => (hbody i s' hlo hi).trans hs') rfl

/-- A loop on a part of the state. -/
theorem forRange_hom {τ : Type*} (f : σ → τ) {g : ℕ → τ → τ}
    (hbody : ∀ i s, g i (f s) = f (body i s)) :
    forRange lo hi g (f s) = f (forRange lo hi body s) :=
  List.foldl_hom f fun s i => hbody i s

/-- **Accumulation rule.** -/
theorem forRange_iff {Q : σ → Prop} {H : ℕ → Prop}
    (hbody : ∀ i s, lo ≤ i → i < hi → (Q (body i s) ↔ Q s ∨ H i)) :
    Q (forRange lo hi body s) ↔ Q s ∨ ∃ i, lo ≤ i ∧ i < hi ∧ H i := by
  induction hi with
  | zero =>
      rw [forRange_of_le (Nat.zero_le lo)]
      exact (or_iff_left fun ⟨i, _, hi, _⟩ => Nat.not_lt_zero i hi).symm
  | succ n ih =>
      rcases Nat.lt_or_ge n lo with h | h
      · rw [forRange_of_le h]
        exact (or_iff_left fun ⟨i, hlo, hi, _⟩ => by omega).symm
      · rw [forRange_succ h, hbody n _ h (Nat.lt_succ_self n),
          ih fun i s hlo hi => hbody i s hlo (Nat.lt_succ_of_lt hi), or_assoc]
        refine or_congr_right ⟨?_, ?_⟩
        · rintro (⟨i, hlo, hi, hH⟩ | hH)
          · exact ⟨i, hlo, Nat.lt_succ_of_lt hi, hH⟩
          · exact ⟨n, h, Nat.lt_succ_self n, hH⟩
        · rintro ⟨i, hlo, hi, hH⟩
          rcases Nat.lt_succ_iff_lt_or_eq.mp hi with hi | rfl
          · exact Or.inl ⟨i, hlo, hi, hH⟩
          · exact Or.inr hH

end CountedLoop
