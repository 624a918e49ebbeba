import Mathlib.Data.BitVec

/-!
# Loops with a narrow signed counter

The loop `for (int i = 0; i < count; i++)` with an unsigned 64-bit bound compares
the sign-extended counter with the bound.  Up to `2 ^ 31` iterations this is the
counted loop a reader expects.  Past that the counter is negative, its sign
extension is close to `2 ^ 64`, and the loop ends there for every bound up to
`2 ^ 64 - 2 ^ 31`.

So a loop that looks as if it ran `count` times runs `2 ^ 31` times at most, and one that should
run for ever may end.  Keeping the wrapping counter makes both visible; the last two lemmas lead
back to the loop a reader expects, under the bound that makes it so.

* `forInt`: the loop itself, with the wrapping counter.
* `Iter count i`: the body runs for the counter value `i`.
* `forInt_induction`: what every iteration preserves, the loop preserves.
* `forInt_rel`: two loops side by side.
* `forInt_iff`: a property that each iteration can only switch on holds after the
  loop when it held before or some iteration switched it on.
* `iter_of_lt`, `iter_iff_of_le`: which counter values occur.
* `forInt_eq_foldl`: the loop as a fold over the counter values, for bounds that are not huge.
-/

namespace IntLoop

variable {σ : Type*}

/-- The loop from counter value `i` on.  The first argument bounds the number of
iterations. -/
def loopFrom (count : BitVec 64) (body : BitVec 32 → σ → σ) : ℕ → BitVec 32 → σ → σ
  | 0, _, s => s
  | fuel + 1, i, s =>
      if i.signExtend 64 < count then loopFrom count body fuel (i + 1) (body i s) else s

/-- `for (int i = 0; i < count; i++) body`.  The counter takes each of its values
at most once, so `2 ^ 32` iterations are never exceeded. -/
@[irreducible] def forInt (count : BitVec 64) (body : BitVec 32 → σ → σ) (s : σ) : σ :=
  loopFrom count body (2 ^ 32) 0 s

/-- The body of the loop runs for the counter value `i`: no value up to `i` ends it. -/
def Iter (count : BitVec 64) (i : BitVec 32) : Prop :=
  ∀ j : BitVec 32, j ≤ i → j.signExtend 64 < count

/-! ## The sign-extended counter -/

theorem signExtend_of_lt {i : BitVec 32} (h : i.toNat < 2 ^ 31) :
    (i.signExtend 64).toNat = i.toNat := by
  have hmsb : i.msb = false := by
    rw [BitVec.msb_eq_false_iff_two_mul_lt]
    omega
  rw [BitVec.signExtend_eq_setWidth_of_msb_false hmsb, BitVec.toNat_setWidth]
  omega

theorem signExtend_of_ge {i : BitVec 32} (h : 2 ^ 31 ≤ i.toNat) :
    (i.signExtend 64).toNat = 2 ^ 64 - 2 ^ 32 + i.toNat := by
  have hmsb : i.msb = true := by
    rw [BitVec.msb_eq_true_iff_two_mul_ge]
    omega
  have hlt := i.isLt
  rw [BitVec.toNat_signExtend, hmsb, BitVec.toNat_setWidth]
  simp only [if_true]
  omega

/-- The bounds up to `2 ^ 31` are met in the expected way. -/
theorem iter_of_lt {count : BitVec 64} {i : BitVec 32} (h : i.toNat < count.toNat)
    (hi : i.toNat < 2 ^ 31) : Iter count i := by
  intro j hj
  have hj' : j.toNat ≤ i.toNat := hj
  rw [BitVec.lt_def, signExtend_of_lt (by omega)]
  omega

theorem Iter.lt {count : BitVec 64} {i : BitVec 32} (h : Iter count i) :
    i.toNat < count.toNat := by
  have hlt := h i (BitVec.le_refl i)
  rw [BitVec.lt_def] at hlt
  rcases Nat.lt_or_ge i.toNat (2 ^ 31) with hi | hi
  · rwa [signExtend_of_lt hi] at hlt
  · rw [signExtend_of_ge hi] at hlt
    omega

/-- Up to a bound of `2 ^ 64 - 2 ^ 31` the body runs for the counter values below
the bound that are not negative. -/
theorem iter_iff_of_le {count : BitVec 64} {i : BitVec 32} (hc : count.toNat ≤ 2 ^ 64 - 2 ^ 31) :
    Iter count i ↔ i.toNat < count.toNat ∧ i.toNat < 2 ^ 31 := by
  constructor
  · intro h
    refine ⟨h.lt, ?_⟩
    by_contra hi
    have hlt := h i (BitVec.le_refl i)
    rw [BitVec.lt_def, signExtend_of_ge (by omega)] at hlt
    omega
  · rintro ⟨h, hi⟩
    exact iter_of_lt h hi

/-- The body runs for a value that passes the test, when it ran for all values below. -/
theorem iter_of_forall_lt {count : BitVec 64} {i : BitVec 32}
    (hprev : ∀ j < i, j.signExtend 64 < count) (hlt : i.signExtend 64 < count) :
    Iter count i := by
  intro j hj
  by_cases h : j < i
  · exact hprev j h
  · obtain rfl : j = i := by bv_omega
    exact hlt

/-! ## Rules for the loop -/

/-- **The loop from a counter value on.**  What every remaining iteration preserves,
the rest of the loop preserves. -/
theorem loopFrom_induction {n : BitVec 64} {f : BitVec 32 → σ → σ} {P : σ → Prop}
    (hbody : ∀ i s, Iter n i → P s → P (f i s)) :
    ∀ (fuel : ℕ) (i : BitVec 32) (s : σ), (∀ j < i, j.signExtend 64 < n) →
      i.toNat + fuel ≤ 2 ^ 32 → P s → P (loopFrom n f fuel i s) := by
  intro fuel
  induction fuel with
  | zero =>
      intro _ _ _ _ hs
      exact hs
  | succ fuel ih =>
      intro i s hprev hfuel hs
      rw [loopFrom]
      split
      next hlt =>
        have hiter : Iter n i := iter_of_forall_lt hprev hlt
        rcases Nat.lt_or_ge (i.toNat + 1) (2 ^ 32) with hnext | hnext
        · refine ih (i + 1) (f i s) ?_ ?_ (hbody i s hiter hs)
          · intro j hj
            exact hiter j (by bv_omega)
          · bv_omega
        · obtain rfl : fuel = 0 := by omega
          exact hbody i s hiter hs
      next => exact hs

/-- **Invariant rule.**  What every iteration preserves, the loop preserves. -/
theorem forInt_induction {n : BitVec 64} {f : BitVec 32 → σ → σ} {P : σ → Prop}
    (hbody : ∀ i s, Iter n i → P s → P (f i s)) {s : σ} (hs : P s) :
    P (forInt n f s) := by
  rw [forInt]
  exact loopFrom_induction hbody (2 ^ 32) 0 s (fun j hj => absurd hj (by bv_omega)) (by simp) hs

/-- **Two loops side by side.**  A relation that corresponding iterations preserve holds between
the states after the loops. -/
theorem forInt_rel {τ : Type*} {n : BitVec 64} {f : BitVec 32 → σ → σ} {g : BitVec 32 → τ → τ}
    {R : σ → τ → Prop} (hbody : ∀ i s t, R s t → R (f i s) (g i t)) {s : σ} {t : τ}
    (hst : R s t) : R (forInt n f s) (forInt n g t) := by
  have hloop : ∀ (fuel : ℕ) (i : BitVec 32) (s : σ) (t : τ), R s t →
      R (loopFrom n f fuel i s) (loopFrom n g fuel i t) := by
    intro fuel
    induction fuel with
    | zero =>
        intro _ _ _ h
        exact h
    | succ fuel ih =>
        intro i s t h
        rw [loopFrom, loopFrom]
        split
        · exact ih (i + 1) _ _ (hbody i s t h)
        · exact h
  rw [forInt, forInt]
  exact hloop (2 ^ 32) 0 s t hst

/-- **The loop from a counter value on**, for a property its iterations only switch on.
The remaining iterations are those of the counter values from `i` on. -/
theorem loopFrom_iff {n : BitVec 64} {f : BitVec 32 → σ → σ} {I Q : σ → Prop}
    {H : BitVec 32 → Prop} (hI : ∀ i s, Iter n i → I s → I (f i s))
    (hQ : ∀ i s, Iter n i → I s → (Q (f i s) ↔ Q s ∨ H i)) :
    ∀ (fuel : ℕ) (i : BitVec 32) (s : σ), (∀ j < i, j.signExtend 64 < n) →
      i.toNat + fuel = 2 ^ 32 → I s →
      (Q (loopFrom n f fuel i s) ↔ Q s ∨ ∃ j, i ≤ j ∧ Iter n j ∧ H j) := by
  intro fuel
  induction fuel with
  | zero =>
      intro i _ _ hfuel _
      exact absurd i.isLt (by omega)
  | succ fuel ih =>
      intro i s hprev hfuel hs
      rw [loopFrom]
      split
      next hlt =>
        have hiter : Iter n i := iter_of_forall_lt hprev hlt
        have hnext : i.toNat + 1 < 2 ^ 32 := by
          by_contra hge
          have hlt' := BitVec.lt_def.mp hlt
          rw [signExtend_of_ge (by omega)] at hlt'
          omega
        rw [ih (i + 1) (f i s) (fun j hj => hiter j (by bv_omega))
          (by bv_omega) (hI i s hiter hs), hQ i s hiter hs, or_assoc]
        refine or_congr_right ⟨?_, ?_⟩
        · rintro (h | ⟨j, hj, hjter, hhit⟩)
          · exact ⟨i, BitVec.le_refl i, hiter, h⟩
          · exact ⟨j, by bv_omega, hjter, hhit⟩
        · rintro ⟨j, hj, hjter, hhit⟩
          by_cases h : j = i
          · exact Or.inl (h ▸ hhit)
          · exact Or.inr ⟨j, by bv_omega, hjter, hhit⟩
      next hlt =>
        refine ⟨Or.inl, ?_⟩
        rintro (h | ⟨j, hj, hjter, -⟩)
        · exact h
        · exact absurd (hjter i hj) hlt

/-- **Accumulation rule.**  When each iteration can only switch `Q` on, and does so
exactly when it hits, `Q` holds after the loop when it held before or some iteration
hit. -/
theorem forInt_iff {n : BitVec 64} {f : BitVec 32 → σ → σ} {I Q : σ → Prop}
    {H : BitVec 32 → Prop} (hI : ∀ i s, Iter n i → I s → I (f i s))
    (hQ : ∀ i s, Iter n i → I s → (Q (f i s) ↔ Q s ∨ H i)) {s : σ} (hs : I s) :
    Q (forInt n f s) ↔ Q s ∨ ∃ i, Iter n i ∧ H i := by
  rw [forInt, loopFrom_iff hI hQ (2 ^ 32) 0 s (fun j hj => absurd hj (by bv_omega)) (by simp) hs]
  refine or_congr_right ⟨?_, ?_⟩
  · rintro ⟨i, -, h⟩
    exact ⟨i, h⟩
  · rintro ⟨i, h⟩
    exact ⟨i, by bv_omega, h⟩

/-! ## The loop as a fold -/

/-- The counter passes the test for the values below the bound that are not negative. -/
theorem signExtend_lt_iff {n : BitVec 64} (hn : n.toNat ≤ 2 ^ 64 - 2 ^ 31) {i : BitVec 32}
    (hi : i.toNat ≤ min n.toNat (2 ^ 31)) :
    i.signExtend 64 < n ↔ i.toNat < min n.toNat (2 ^ 31) := by
  rw [BitVec.lt_def]
  rcases Nat.lt_or_ge i.toNat (2 ^ 31) with hlt | hge
  · rw [signExtend_of_lt hlt]
    omega
  · rw [signExtend_of_ge hge]
    omega

/-- **The loop is a fold over the counter values** up to the bound, or up to `2 ^ 31`. -/
theorem forInt_eq_foldl {n : BitVec 64} (hn : n.toNat ≤ 2 ^ 64 - 2 ^ 31) (f : BitVec 32 → σ → σ)
    (s : σ) : forInt n f s =
      (List.range (min n.toNat (2 ^ 31))).foldl (fun s i => f (BitVec.ofNat 32 i) s) s := by
  have hloop : ∀ (d fuel : ℕ) (i : BitVec 32) (s : σ), i.toNat + d = min n.toNat (2 ^ 31) →
      d < fuel → loopFrom n f fuel i s =
        (List.range' i.toNat d).foldl (fun s i => f (BitVec.ofNat 32 i) s) s := by
    intro d
    induction d with
    | zero =>
        intro fuel i s hi hfuel
        obtain ⟨fuel, rfl⟩ : ∃ k, fuel = k + 1 := ⟨fuel - 1, by omega⟩
        rw [loopFrom, if_neg]
        · rfl
        · rw [signExtend_lt_iff hn (by omega)]
          omega
    | succ d ih =>
        intro fuel i s hi hfuel
        obtain ⟨fuel, rfl⟩ : ∃ k, fuel = k + 1 := ⟨fuel - 1, by omega⟩
        have hself : BitVec.ofNat 32 i.toNat = i := by simp
        have hnext : (i + 1).toNat = i.toNat + 1 := by bv_omega
        rw [loopFrom, if_pos ((signExtend_lt_iff hn (by omega)).mpr (by omega)),
          ih fuel (i + 1) (f i s) (by omega) (by omega), hnext, List.range'_succ,
          List.foldl_cons, hself]
  rw [forInt, hloop (min n.toNat (2 ^ 31)) (2 ^ 32) 0 s (by simp) (by omega),
    List.range_eq_range']
  rfl

end IntLoop
