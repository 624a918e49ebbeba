import EtaOs.Library.CountedLoop
import Mathlib.Order.Defs.Unbundled

/-!
# Programs with a state that may not return

A program of `StateT σ Option` returns a value and a state, or does not return: it faults,
or it runs out of the fuel its loops are given.

The two notions are the partial and the total one.  `Moves` says nothing about whether a program
returns and holds of all states it could return in; `Returns` is proved by running the program.

* `Moves R x`: wherever `x` returns, the state it started in is related by `R` to the state
  it returns in.  For a preorder `R` it is enough that the parts of `x` move by `R`.
* `Returns x s Q`: `x`, started in `s`, returns with `Q`.
* `Follows I x f`: `x` returns wherever `I` holds, and does to its state what the function `f`
  does to another state that `I` relates to it.  A program that is written like the function,
  statement for statement and loop for loop, follows it when its statements do.
-/

namespace Fallible

open CountedLoop

variable {σ α β : Type} {R : σ → σ → Prop} {x : StateT σ Option α} {f : α → StateT σ Option β}
  {s : σ} {Q Q' : α → σ → Prop}

theorem bind_apply (x : StateT σ Option α) (f : α → StateT σ Option β) (s : σ) :
    (x >>= f) s = (x s).bind fun p => f p.1 p.2 := rfl

/-- A sequence that returns returns from both its parts. -/
theorem bind_eq_some {b : β} {u : σ} :
    (x >>= f) s = some (b, u) ↔ ∃ a t, x s = some (a, t) ∧ f a t = some (b, u) := by
  rw [bind_apply, Option.bind_eq_some_iff]
  exact Prod.exists

/-! ## What every run keeps to -/

/-- Every run of `x` that returns leads to a state related by `R`. -/
def Moves (R : σ → σ → Prop) (x : StateT σ Option α) : Prop :=
  ∀ s a t, x s = some (a, t) → R s t

theorem moves_none : Moves R (fun _ => none : StateT σ Option α) :=
  fun _ _ _ h => absurd h.symm (Option.some_ne_none _)

theorem moves_modify {g : σ → σ} (h : ∀ s, R s (g s)) :
    Moves R (modify g : StateT σ Option PUnit) := by
  intro s a t heq
  obtain ⟨-, rfl⟩ := Prod.mk.inj (Option.some.inj heq)
  exact h s

theorem moves_pure [Std.Refl R] (a : α) : Moves R (pure a : StateT σ Option α) := by
  intro s b t heq
  obtain ⟨-, rfl⟩ := Prod.mk.inj (Option.some.inj heq)
  exact Std.Refl.refl s

theorem moves_get [Std.Refl R] : Moves R (get : StateT σ Option σ) := by
  intro s b t heq
  obtain ⟨-, rfl⟩ := Prod.mk.inj (Option.some.inj heq)
  exact Std.Refl.refl s

/-- **Sequencing rule.** -/
theorem Moves.bind [IsTrans σ R] (hx : Moves R x) (hf : ∀ a, Moves R (f a)) :
    Moves R (x >>= f) := by
  intro s b u h
  obtain ⟨a, t, ha, hb⟩ := bind_eq_some.mp h
  exact IsTrans.trans s t u (hx s a t ha) (hf a t b u hb)

theorem Moves.ite {c : Prop} [Decidable c] {y : StateT σ Option α} (hx : Moves R x)
    (hy : Moves R y) : Moves R (if c then x else y) := by
  split
  · exact hx
  · exact hy

/-! ## Runs that return -/

/-- `x` returns from `s`, with `Q`. -/
def Returns (x : StateT σ Option α) (s : σ) (Q : α → σ → Prop) : Prop :=
  ∃ a t, x s = some (a, t) ∧ Q a t

theorem returns_pure {a : α} (h : Q a s) : Returns (pure a) s Q := ⟨a, s, rfl, h⟩

theorem returns_modify {g : σ → σ} {Q : PUnit → σ → Prop} (h : Q ⟨⟩ (g s)) :
    Returns (modify g) s Q := ⟨⟨⟩, g s, rfl, h⟩

/-- **Sequencing rule.** -/
theorem Returns.bind {P : β → σ → Prop} (hx : Returns x s Q)
    (hf : ∀ a t, Q a t → Returns (f a) t P) : Returns (x >>= f) s P := by
  obtain ⟨a, t, ha, hQ⟩ := hx
  obtain ⟨b, u, hb, hP⟩ := hf a t hQ
  refine ⟨b, u, ?_, hP⟩
  rw [bind_apply, ha]
  exact hb

/-- Reading the state hands it to the rest. -/
theorem Returns.get_bind {g : σ → StateT σ Option β} {P : β → σ → Prop}
    (h : Returns (g s) s P) : Returns (get >>= g) s P := by
  obtain ⟨b, u, hb, hP⟩ := h
  exact ⟨b, u, hb, hP⟩

/-- **Consequence rule.** -/
theorem Returns.mono (h : Returns x s Q) (hQ : ∀ a t, Q a t → Q' a t) : Returns x s Q' := by
  obtain ⟨a, t, ha, hat⟩ := h
  exact ⟨a, t, ha, hQ a t hat⟩

theorem Returns.of_ite_pos {c : Prop} [Decidable c] {y : StateT σ Option α} (hc : c)
    (hx : Returns x s Q) : Returns (if c then x else y) s Q := by
  rwa [if_pos hc]

theorem Returns.of_ite_neg {c : Prop} [Decidable c] {y : StateT σ Option α} (hc : ¬ c)
    (hy : Returns y s Q) : Returns (if c then x else y) s Q := by
  rwa [if_neg hc]

/-- A program has one result. -/
theorem Returns.of_eq {a : α} {t : σ} (h : Returns x s Q) (heq : x s = some (a, t)) : Q a t := by
  obtain ⟨b, u, hb, hQ⟩ := h
  obtain ⟨rfl, rfl⟩ := Prod.mk.inj (Option.some.inj (hb.symm.trans heq))
  exact hQ

/-! ## Programs that follow a function -/

/-- `for (i = lo; i < hi; i++) body`, of programs. -/
def forRangeM (lo hi : ℕ) (body : ℕ → StateT σ Option PUnit) : StateT σ Option PUnit :=
  (List.range' lo (hi - lo)).forM body

theorem Moves.forRangeM [Std.Refl R] [IsTrans σ R] {lo hi : ℕ}
    {body : ℕ → StateT σ Option PUnit} (hbody : ∀ i, Moves R (body i)) :
    Moves R (forRangeM lo hi body) := by
  have hlist : ∀ l : List ℕ, Moves R (l.forM body) := by
    intro l
    induction l with
    | nil => exact moves_pure _
    | cons i l ih => exact (hbody i).bind fun _ => ih
  exact hlist _

section Follows

variable {τ : Type*} {I : σ → τ → Prop} {p q : StateT σ Option PUnit} {f g : τ → τ}

/-- From related states `p` returns, in a state that is related to what `f` makes of the other. -/
def Follows (I : σ → τ → Prop) (p : StateT σ Option PUnit) (f : τ → τ) : Prop :=
  ∀ s t, I s t → Returns p s fun _ s' => I s' (f t)

theorem follows_pure : Follows I (pure ⟨⟩) id := fun _ _ h => returns_pure h

/-- **Sequencing rule.** -/
theorem Follows.bind (hp : Follows I p f) (hq : Follows I q g) :
    Follows I (p >>= fun _ => q) fun t => g (f t) :=
  fun s t h => (hp s t h).bind fun _ s' h' => hq s' (f t) h'

theorem Follows.ite {c : Prop} [Decidable c] (hp : c → Follows I p f) (hq : ¬ c → Follows I q g) :
    Follows I (if c then p else q) fun t => if c then f t else g t := by
  by_cases hc : c
  · simpa only [if_pos hc] using hp hc
  · simpa only [if_neg hc] using hq hc

/-- **Loop rule.** -/
theorem Follows.forRange {lo hi : ℕ} {body : ℕ → StateT σ Option PUnit} {step : ℕ → τ → τ}
    (hbody : ∀ i, lo ≤ i → i < hi → Follows I (body i) (step i)) :
    Follows I (forRangeM lo hi body) (forRange lo hi step) := by
  have hlist : ∀ l : List ℕ, (∀ i ∈ l, lo ≤ i ∧ i < hi) →
      Follows I (l.forM body) fun t => l.foldl (fun t i => step i t) t := by
    intro l hl
    induction l with
    | nil => exact follows_pure
    | cons i l ih =>
        obtain ⟨hlo, hhi⟩ := hl i List.mem_cons_self
        exact (hbody i hlo hhi).bind (ih fun j hj => hl j (List.mem_cons_of_mem i hj))
  exact hlist _ fun i hi => by
    obtain ⟨hlo, hhi⟩ := List.mem_range'_1.mp hi
    omega

end Follows

end Fallible
