import Mathlib.Data.List.Infix

/-!
# Programs that emit events

A program takes a state to a value, a new state and the events it emits on the way, the first
one first.  A program that may run out of fuel has no value then, and has still emitted its
events.

Such programs are for statements about what happens on the way, where the value says too little.
Emitting an event has no influence on the run, so erasing the events is a morphism, and a program
can be compared with the one that does not emit.

* `Outcome`, `Prog`: the result of a run, and the monad.
* `run_bind`, `run_emit` and their siblings: the run of each way to build a program.
* `andThen`: sequencing of programs that may run out of fuel.
* `Continues`: a program that goes on where another one ran out of fuel.
-/

namespace Emitting

variable {σ ε α β : Type}

/-- The value of a run, the state after it, and the events it emitted. -/
@[ext] structure Outcome (σ ε α : Type) where
  value : α
  state : σ
  events : List ε

/-- A program with a state that emits events. -/
def Prog (σ ε α : Type) : Type := σ → Outcome σ ε α

namespace Prog

/-- The run of a program from a state. -/
def run (x : Prog σ ε α) (s : σ) : Outcome σ ε α := x s

instance : Monad (Prog σ ε) where
  pure a := fun s => ⟨a, s, []⟩
  bind x f := fun s =>
    let o := x s
    let o' := f o.value o.state
    ⟨o'.value, o'.state, o.events ++ o'.events⟩

/-- The state. -/
def get : Prog σ ε σ := fun s => ⟨s, s, []⟩

/-- Change the state. -/
def modify (f : σ → σ) : Prog σ ε Unit := fun s => ⟨(), f s, []⟩

/-- Emit an event. -/
def emit (e : ε) : Prog σ ε Unit := fun s => ⟨(), s, [e]⟩

/-- Go on with the value of a program, unless it ran out of fuel. -/
def andThen (x : Prog σ ε (Option α)) (f : α → Prog σ ε (Option β)) : Prog σ ε (Option β) := do
  match ← x with
  | none => return none
  | some a => f a

@[simp] theorem run_pure (a : α) (s : σ) : (pure a : Prog σ ε α).run s = ⟨a, s, []⟩ := rfl

@[simp] theorem run_bind (x : Prog σ ε α) (f : α → Prog σ ε β) (s : σ) : (x >>= f).run s =
    ⟨((f (x.run s).value).run (x.run s).state).value,
      ((f (x.run s).value).run (x.run s).state).state,
      (x.run s).events ++ ((f (x.run s).value).run (x.run s).state).events⟩ := rfl

@[simp] theorem run_get (s : σ) : (get : Prog σ ε σ).run s = ⟨s, s, []⟩ := rfl

@[simp] theorem run_modify (f : σ → σ) (s : σ) :
    (modify f : Prog σ ε Unit).run s = ⟨(), f s, []⟩ := rfl

@[simp] theorem run_emit (e : ε) (s : σ) : (emit e : Prog σ ε Unit).run s = ⟨(), s, [e]⟩ := rfl

/-- Sequencing after a run that had a value. -/
theorem run_andThen {x : Prog σ ε (Option α)} {f : α → Prog σ ε (Option β)} {s t : σ} {a : α}
    {es : List ε} (hx : x.run s = ⟨some a, t, es⟩) : (x.andThen f).run s =
      ⟨((f a).run t).value, ((f a).run t).state, es ++ ((f a).run t).events⟩ := by
  rw [andThen, run_bind, hx]

/-! ## Fuel -/

/-- **`y` goes on where `x` ran out of fuel**: where `x` has a value the runs are the same, and
`x` emits a prefix of the events of `y` in any case. -/
structure Continues (x y : Prog σ ε (Option α)) : Prop where
  same : ∀ s a, (x.run s).value = some a → y.run s = x.run s
  events : ∀ s, (x.run s).events <+: (y.run s).events

namespace Continues

variable {x y z : Prog σ ε (Option α)}

theorem refl (x : Prog σ ε (Option α)) : Continues x x :=
  ⟨fun _ _ _ => rfl, fun _ => List.prefix_refl _⟩

theorem trans (h : Continues x y) (h' : Continues y z) : Continues x z where
  same := by
    intro s a hx
    have hy := h.same s a hx
    rw [← hy] at hx
    rw [h'.same s a hx, hy]
  events := fun s => (h.events s).trans (h'.events s)

/-- A program that emits nothing and has no value. -/
theorem of_none (y : Prog σ ε (Option α)) : Continues (pure none) y :=
  ⟨fun _ _ h => absurd h (by simp), fun _ => List.nil_prefix⟩

/-- After a part that does not use fuel. -/
theorem bind {w : Prog σ ε β} {f g : β → Prog σ ε (Option α)}
    (h : ∀ b, Continues (f b) (g b)) : Continues (w >>= f) (w >>= g) where
  same := by
    intro s a hx
    rw [run_bind] at hx
    rw [run_bind, run_bind, (h _).same _ a hx]
  events := by
    intro s
    rw [run_bind, run_bind]
    exact (List.prefix_append_right_inj _).mpr ((h _).events _)

theorem ite {c : Prop} [Decidable c] {x' y' : Prog σ ε (Option α)} (h : Continues x y)
    (h' : Continues x' y') : Continues (if c then x else x') (if c then y else y') := by
  split_ifs
  · exact h
  · exact h'

/-- After a part that goes on itself. -/
theorem andThen {f g : α → Prog σ ε (Option β)} (h : Continues x y)
    (hf : ∀ a, Continues (f a) (g a)) : Continues (x.andThen f) (y.andThen g) where
  same := by
    intro s b hx
    cases hv : (x.run s).value with
    | none =>
        rw [Prog.andThen, run_bind, hv] at hx
        exact absurd hx (by simp)
    | some a =>
        have hrun : x.run s = ⟨some a, (x.run s).state, (x.run s).events⟩ := by rw [← hv]
        rw [run_andThen hrun] at hx
        rw [run_andThen ((h.same s a hv).trans hrun), run_andThen hrun, (hf a).same _ b hx]
  events := by
    intro s
    cases hv : (x.run s).value with
    | none =>
        have hsame : ((x.andThen f).run s).events = (x.run s).events := by
          rw [Prog.andThen, run_bind, hv]
          simp
        rw [hsame]
        refine (h.events s).trans ?_
        rw [Prog.andThen, run_bind]
        exact List.prefix_append _ _
    | some a =>
        have hrun : x.run s = ⟨some a, (x.run s).state, (x.run s).events⟩ := by rw [← hv]
        rw [run_andThen hrun, run_andThen ((h.same s a hv).trans hrun)]
        exact (List.prefix_append_right_inj _).mpr ((hf a).events _)

end Continues

end Prog

end Emitting
