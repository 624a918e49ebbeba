import Mathlib.Data.List.Flatten
import Mathlib.Data.List.Perm.Basic

/-!
# Nested visits

A nested loop visits, for every item of a list, a list of its own.  Two such loops are compared
item by item.

Order does not matter for what a walk has to visit, repetitions do, so the lists are compared as
multisets.  The difference of two nested loops then comes down to the items for which the inner
lists differ.

* `flatMap_perm_iff`: when one loop visits part of what the other does for every item, they
  visit the same things exactly when they do so for every item.
* `flatMap_ite_singleton`: a loop that keeps some of its values.
-/

namespace Visits

open List

variable {α β : Type*} {f g : α → List β}

/-- **Comparison of loops.** -/
theorem flatMap_perm_iff {l : List α} (h : ∀ x ∈ l, f x <+ g x) :
    l.flatMap f ~ l.flatMap g ↔ ∀ x ∈ l, f x = g x := by
  refine ⟨fun hperm => ?_, fun heq => Perm.of_eq (flatMap_congr heq)⟩
  induction l with
  | nil => exact fun x hx => absurd hx not_mem_nil
  | cons a l ih =>
      have ha : f a <+ g a := h a mem_cons_self
      have hl : ∀ x ∈ l, f x <+ g x := fun x hx => h x (mem_cons_of_mem a hx)
      have hlen := hperm.length_eq
      have hle := ha.length_le
      have hle' := (Sublist.flatMap_right l hl).length_le
      rw [flatMap_cons, flatMap_cons, length_append, length_append] at hlen
      have heq : f a = g a := ha.eq_of_length (by omega)
      have hrest : l.flatMap f = l.flatMap g :=
        (Sublist.flatMap_right l hl).eq_of_length (by omega)
      intro x hx
      rcases mem_cons.mp hx with rfl | hx
      · exact heq
      · exact ih hl (Perm.of_eq hrest) x hx

/-- A loop that keeps the values with a property is a filter. -/
theorem flatMap_ite_singleton (l : List α) (h : α → β) (p : β → Prop) [DecidablePred p] :
    (l.flatMap fun a => if p (h a) then [h a] else []) = (l.map h).filter (p ·) := by
  induction l with
  | nil => rfl
  | cons a l ih =>
      rw [flatMap_cons, map_cons, filter_cons, ih]
      by_cases hp : p (h a)
      · rw [if_pos hp, if_pos (decide_eq_true hp)]
        rfl
      · rw [if_neg hp, if_neg (by simpa using hp)]
        rfl

end Visits
