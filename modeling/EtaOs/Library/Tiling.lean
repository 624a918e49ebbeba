import Mathlib.Data.List.Basic
import Mathlib.Data.Nat.Notation

/-!
# Lists of pieces that tile an interval

Each piece `x` covers the naturals from `lo x` up to `hi x`.  A list tiles an interval
when every piece starts where the one before it ends.

A tiling says at once that the pieces are in order, that they are disjoint, and that nothing is
left out between them.  The three are wanted at different times, and the lemmas give each of them
from the one definition.

* `Tiles`: the list tiles the interval.
* `tiles_append`: a tiling is cut at any of its seams.
* `Tiles.replace`: a piece makes room for pieces that tile its own interval.
* `Tiles.bounds`, `Tiles.before`, `Tiles.behind`, `Tiles.exists_mem`: the pieces lie inside,
  follow one another, and cover every point.
-/

namespace Tiling

variable {α : Type*} {lo hi : α → ℕ} {a b c : ℕ} {x y : α} {l r : List α}

/-- The pieces of the list tile the interval from `a` up to `b`. -/
def Tiles (lo hi : α → ℕ) : ℕ → List α → ℕ → Prop
  | a, [], b => a = b
  | a, x :: l, b => lo x = a ∧ lo x < hi x ∧ Tiles lo hi (hi x) l b

@[simp] theorem tiles_nil : Tiles lo hi a [] b ↔ a = b := Iff.rfl

@[simp] theorem tiles_cons :
    Tiles lo hi a (x :: l) b ↔ lo x = a ∧ lo x < hi x ∧ Tiles lo hi (hi x) l b := Iff.rfl

/-- **A tiling is cut at a seam.** -/
theorem tiles_append :
    Tiles lo hi a (l ++ r) b ↔ ∃ c, Tiles lo hi a l c ∧ Tiles lo hi c r b := by
  induction l generalizing a with
  | nil => simp
  | cons x l ih =>
      rw [List.cons_append, tiles_cons, ih]
      constructor
      · rintro ⟨hlo, hlt, c, hl, hr⟩
        exact ⟨c, ⟨hlo, hlt, hl⟩, hr⟩
      · rintro ⟨c, ⟨hlo, hlt, hl⟩, hr⟩
        exact ⟨hlo, hlt, c, hl, hr⟩

/-- A piece in the middle of a tiling starts at a seam and ends at one. -/
theorem tiles_middle :
    Tiles lo hi a (l ++ x :: r) b ↔
      Tiles lo hi a l (lo x) ∧ lo x < hi x ∧ Tiles lo hi (hi x) r b := by
  rw [tiles_append]
  constructor
  · rintro ⟨c, hl, rfl, hlt, hr⟩
    exact ⟨hl, hlt, hr⟩
  · rintro ⟨hl, hlt, hr⟩
    exact ⟨lo x, hl, rfl, hlt, hr⟩

/-- Tilings of adjacent intervals are joined. -/
theorem Tiles.append (hl : Tiles lo hi a l b) (hr : Tiles lo hi b r c) :
    Tiles lo hi a (l ++ r) c :=
  tiles_append.mpr ⟨b, hl, hr⟩

/-- **A piece makes room for pieces that tile its interval.** -/
theorem Tiles.replace {new : List α} (h : Tiles lo hi a (l ++ x :: r) b)
    (hnew : Tiles lo hi (lo x) new (hi x)) : Tiles lo hi a (l ++ new ++ r) b := by
  obtain ⟨hl, -, hr⟩ := tiles_middle.mp h
  exact (hl.append hnew).append hr

theorem Tiles.le (h : Tiles lo hi a l b) : a ≤ b := by
  induction l generalizing a with
  | nil => exact Nat.le_of_eq h
  | cons x l ih =>
      obtain ⟨hlo, hlt, hl⟩ := h
      have hle := ih hl
      omega

/-- The pieces lie inside the interval. -/
theorem Tiles.bounds (h : Tiles lo hi a l b) (hx : x ∈ l) :
    a ≤ lo x ∧ lo x < hi x ∧ hi x ≤ b := by
  obtain ⟨s, t, rfl⟩ := List.append_of_mem hx
  obtain ⟨hs, hlt, ht⟩ := tiles_middle.mp h
  exact ⟨hs.le, hlt, ht.le⟩

/-- The pieces before a piece end where it starts, or earlier. -/
theorem Tiles.before (h : Tiles lo hi a (l ++ x :: r) b) (hy : y ∈ l) : hi y ≤ lo x := by
  obtain ⟨hl, -, -⟩ := tiles_middle.mp h
  exact (hl.bounds hy).2.2

/-- The pieces behind a piece start where it ends, or later. -/
theorem Tiles.behind (h : Tiles lo hi a (l ++ x :: r) b) (hy : y ∈ r) : hi x ≤ lo y := by
  obtain ⟨-, -, hr⟩ := tiles_middle.mp h
  exact (hr.bounds hy).1

/-- Two pieces are one, or one of them ends before the other starts. -/
theorem Tiles.eq_or_apart (h : Tiles lo hi a l b) (hx : x ∈ l) (hy : y ∈ l) :
    x = y ∨ hi x ≤ lo y ∨ hi y ≤ lo x := by
  obtain ⟨s, t, rfl⟩ := List.append_of_mem hx
  rcases List.mem_append.mp hy with hy | hy
  · exact Or.inr (Or.inr (h.before hy))
  · rcases List.mem_cons.mp hy with rfl | hy
    · exact Or.inl rfl
    · exact Or.inr (Or.inl (h.behind hy))

/-- Every point of the interval lies in a piece. -/
theorem Tiles.exists_mem {k : ℕ} (h : Tiles lo hi a l b) (ha : a ≤ k) (hb : k < b) :
    ∃ x ∈ l, lo x ≤ k ∧ k < hi x := by
  induction l generalizing a with
  | nil =>
      obtain rfl := tiles_nil.mp h
      omega
  | cons x l ih =>
      obtain ⟨hlo, -, hl⟩ := h
      by_cases hk : k < hi x
      · exact ⟨x, List.mem_cons_self, by omega, hk⟩
      · obtain ⟨y, hy, hin⟩ := ih hl (by omega)
        exact ⟨y, List.mem_cons_of_mem x hy, hin⟩

end Tiling
