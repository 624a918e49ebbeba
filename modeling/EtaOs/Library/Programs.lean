import Mathlib.Logic.Basic

/-!
# Programs with a state and an early end

A program of `EStateM` either returns a value or ends early with an error; the state is kept
in both cases.  `Ends x s Q E` says that `x`, started in `s`, returns with `Q` or ends early
with `E`.

The two outcomes have their own postconditions, since a program that ends early has done something
as well, and what it has done up to there may be the very thing that is asked about.

* `ends_bind`, `ends_pure`, `ends_get`, `ends_modify`, `ends_throw`: one rule for each way to
  build a program.
* `Ends.mono`, `Ends.bind`: weakening, and sequencing through a property in between.
* `Ends.of_returns`: what the last part of a program ensures, the program ensures.
-/

namespace Programs

universe u

variable {ε σ α β : Type u} {x : EStateM ε σ α} {s : σ} {Q Q' : α → σ → Prop} {E E' : ε → σ → Prop}

/-- `x` returns from `s` with `Q`, or ends early with `E`. -/
def Ends (x : EStateM ε σ α) (s : σ) (Q : α → σ → Prop) (E : ε → σ → Prop) : Prop :=
  match x s with
  | .ok a t => Q a t
  | .error e t => E e t

@[simp] theorem ends_pure (a : α) : Ends (pure a) s Q E ↔ Q a s := Iff.rfl

@[simp] theorem ends_throw (e : ε) : Ends (throw e : EStateM ε σ α) s Q E ↔ E e s := Iff.rfl

@[simp] theorem ends_get {R : σ → σ → Prop} : Ends (get : EStateM ε σ σ) s R E ↔ R s s := Iff.rfl

@[simp] theorem ends_modify (f : σ → σ) {R : PUnit → σ → Prop} :
    Ends (modify f : EStateM ε σ PUnit) s R E ↔ R ⟨⟩ (f s) := Iff.rfl

/-- **Sequencing rule.** -/
@[simp] theorem ends_bind (f : α → EStateM ε σ β) {R : β → σ → Prop} :
    Ends (x >>= f) s R E ↔ Ends x s (fun a t => Ends (f a) t R E) E := by
  show (match EStateM.bind x f s with | .ok b t => R b t | .error e t => E e t) ↔ _
  unfold Ends EStateM.bind
  cases x s <;> rfl

/-- **Consequence rule.** -/
theorem Ends.mono (h : Ends x s Q E) (hQ : ∀ a t, Q a t → Q' a t) (hE : ∀ e t, E e t → E' e t) :
    Ends x s Q' E' := by
  unfold Ends at h ⊢
  split at h
  · exact hQ _ _ h
  · exact hE _ _ h

/-- Sequencing through a property in between. -/
theorem Ends.bind {f : α → EStateM ε σ β} {R : β → σ → Prop} (h : Ends x s Q E)
    (hf : ∀ a t, Q a t → Ends (f a) t R E) : Ends (x >>= f) s R E :=
  ends_bind f |>.mpr (h.mono hf fun _ _ he => he)

/-- A program that returns ends as its last part does, whatever comes before it. -/
theorem Ends.of_returns (h : ∀ a t, Q a t) (hE : ∀ e t, E e t) : Ends x s Q E := by
  unfold Ends
  split
  · exact h _ _
  · exact hE _ _

end Programs
