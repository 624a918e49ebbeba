import EtaOs.Renderer.Model
import EtaOs.Library.Runs

/-!
# The cursor and the character grid

Every method moves the cursor by a computation of its own on the pair alone.  Drawing and line
feeds stay on the grid as long as the line fits in a `long`.  A backspace at a line start goes
to the column `width - 8`, which is on the grid only if `8` divides the width.

The cursor depends on nothing but itself and the width, so it can be followed on its own, without
the framebuffer.  It has to be followed exactly: the conversions between the widths of the integers
are where it leaves the grid.

* `cursor_print`, `cursor_clearChar`, `nextCell_eq`: how the methods move the cursor.
* `OnGrid`, `gridCell`: the grid, and its cells in reading order.
* `nextCell_gridCell`, `iterate_nextCell`: drawing visits the cells in order.
* `onGrid_clearCell_iff`: when a backspace stays on the grid.
* `onGrid_of_run`: runs that stay on the grid.
-/

namespace EtaOs

open Bootloader CountedLoop Relation

/-- The characters `print` draws. -/
def strlen (str : List (BitVec 8)) : ℕ := (str.takeWhile (· ≠ 0)).length

theorem strlen_cons_of_ne {chr : BitVec 8} {str : List (BitVec 8)} (h : chr ≠ 0) :
    strlen (chr :: str) = strlen str + 1 := by
  rw [strlen, List.takeWhile_cons_of_pos (by simpa using h)]
  rfl

theorem strlen_cons_of_eq {chr : BitVec 8} {str : List (BitVec 8)} (h : chr = 0) :
    strlen (chr :: str) = 0 := by
  rw [strlen, List.takeWhile_cons_of_neg (by simpa using h)]
  rfl

namespace BasicRenderer

variable {t : Target}

/-! ## Moves -/

theorem cursor_drawChar (chr : BitVec 8) (r : BasicRenderer) :
    (drawChar t chr r).cursorPosition = nextCell t r.cursorPosition := by
  unfold drawChar
  rfl

theorem cursor_print (str : List (BitVec 8)) (r : BasicRenderer) :
    (print t str r).cursorPosition = (nextCell t)^[strlen str] r.cursorPosition := by
  induction str generalizing r with
  | nil => rfl
  | cons chr str ih =>
      rw [print]
      split
      next h =>
        rw [ih, strlen_cons_of_ne h, cursor_drawChar]
        rfl
      next h =>
        rw [strlen_cons_of_eq (not_not.mp h)]
        rfl

/-- The cursor after a backspace. -/
def clearCell (t : Target) (p : Point) : Point :=
  let p := if p.x = 0 then lineAbove t p else p
  let p : Point := ⟨toLong (p.x - 8), p.y⟩
  if p.x < 0 then lineAbove t p else p

theorem cursor_clearChar (r : BasicRenderer) :
    (clearChar t r).cursorPosition = clearCell t r.cursorPosition := by
  unfold clearChar clearCell
  rfl

theorem cursor_nextln (r : BasicRenderer) :
    (nextln r).cursorPosition = ⟨0, toLong (r.cursorPosition.y + 16)⟩ := rfl

theorem toLong_of_lt {v : ℤ} (hlo : -2 ^ 63 ≤ v) (hhi : v < 2 ^ 63) : toLong v = v := by
  unfold toLong
  rw [Int.bmod_eq_of_le] <;> omega

/-- The move of a character from a column and row in range. -/
theorem nextCell_eq {p : Point} (hx0 : 0 ≤ p.x) (hx : p.x < 2 ^ 33) (hy0 : 0 ≤ p.y)
    (hy : p.y + 16 < 2 ^ 63) : nextCell t p =
      if p.x + 16 > t.targetFramebuffer.width.toNat then ⟨0, p.y + 16⟩ else ⟨p.x + 8, p.y⟩ := by
  have hnext : toLong (p.x + 8) = p.x + 8 := toLong_of_lt (by omega) (by omega)
  have hend : toLong (p.x + 8 + 8) = p.x + 16 := by
    rw [Int.add_assoc]
    exact toLong_of_lt (by omega) (by omega)
  have hfeed : toLong (p.y + 16) = p.y + 16 := toLong_of_lt (by omega) hy
  unfold nextCell
  dsimp only
  rw [hnext, hend, hfeed]

/-! ## The grid -/

/-- **The cursor is on the character grid.** -/
structure OnGrid (t : Target) (p : Point) : Prop where
  x_nonneg : 0 ≤ p.x
  x_le : p.x + 8 ≤ t.targetFramebuffer.width.toNat
  x_dvd : 8 ∣ p.x
  y_nonneg : 0 ≤ p.y
  y_dvd : 16 ∣ p.y

/-- The start of a line is on the grid. -/
theorem onGrid_lineStart (hwidth : 8 ≤ t.targetFramebuffer.width.toNat) {y : ℤ} (hy : 0 ≤ y)
    (hdvd : 16 ∣ y) : OnGrid t ⟨0, y⟩ := by
  refine ⟨le_refl _, ?_, dvd_zero 8, hy, hdvd⟩
  dsimp only
  omega

/-- The cells of a line. -/
def cols (t : Target) : ℕ := t.targetFramebuffer.width.toNat / 8

/-- Cell `m` in reading order, from the line `y` on. -/
def gridCell (t : Target) (y : ℤ) (m : ℕ) : Point :=
  ⟨8 * (m % cols t : ℕ), y + 16 * (m / cols t : ℕ)⟩

/-- A cursor on the grid is a cell of its line. -/
theorem OnGrid.eq_gridCell {p : Point} (h : OnGrid t p) :
    p = gridCell t p.y (p.x / 8).toNat := by
  obtain ⟨x, y⟩ := p
  have hx : 0 ≤ x := h.x_nonneg
  have hle : x + 8 ≤ t.targetFramebuffer.width.toNat := h.x_le
  obtain ⟨k, hk⟩ : 8 ∣ x := h.x_dvd
  have hcols : (x / 8).toNat < cols t := by
    unfold cols
    omega
  unfold gridCell
  rw [Nat.mod_eq_of_lt hcols, Nat.div_eq_of_lt hcols, Point.mk.injEq]
  dsimp only
  constructor <;> omega

theorem onGrid_gridCell (hwidth : 8 ≤ t.targetFramebuffer.width.toNat) {y : ℤ} (hy : 0 ≤ y)
    (hdvd : 16 ∣ y) (m : ℕ) : OnGrid t (gridCell t y m) := by
  have hcols : 0 < cols t := by
    unfold cols
    omega
  have hlt := Nat.mod_lt m hcols
  have hmul : 8 * cols t ≤ t.targetFramebuffer.width.toNat := Nat.mul_div_le _ 8
  have hdiv : (0 : ℤ) ≤ (m / cols t : ℕ) := Int.natCast_nonneg _
  refine ⟨?_, ?_, ⟨_, rfl⟩, ?_, ?_⟩ <;> unfold gridCell <;> dsimp only <;> omega

theorem div_mod_of_eq {c k d m : ℕ} (hd : d < c) (h : m = c * k + d) : m / c = k ∧ m % c = d := by
  rw [h, Nat.mul_add_div (by omega), Nat.mul_add_mod, Nat.div_eq_of_lt hd, Nat.mod_eq_of_lt hd]
  exact ⟨Nat.add_zero k, rfl⟩

/-- **Drawing moves to the next cell.** -/
theorem nextCell_gridCell (hwidth : 8 ≤ t.targetFramebuffer.width.toNat) {y : ℤ} (hy : 0 ≤ y)
    {m : ℕ} (hlast : y + 16 * ((m + 1) / cols t : ℕ) < 2 ^ 63) :
    nextCell t (gridCell t y m) = gridCell t y (m + 1) := by
  have hcols : 0 < cols t := by
    unfold cols
    omega
  have hwidth' := t.targetFramebuffer.width.isLt
  have hlt := Nat.mod_lt m hcols
  have hdm := Nat.div_add_mod m (cols t)
  have hmul : 8 * cols t ≤ t.targetFramebuffer.width.toNat := Nat.mul_div_le _ 8
  have hmul' : t.targetFramebuffer.width.toNat < 8 * (cols t + 1) := by
    unfold cols
    omega
  have hx : toLong (8 * (m % cols t : ℕ) + 8) = 8 * (m % cols t : ℕ) + 8 :=
    toLong_of_lt (by omega) (by omega)
  have hx' : toLong (8 * (m % cols t : ℕ) + 8 + 8) = 8 * (m % cols t : ℕ) + 8 + 8 :=
    toLong_of_lt (by omega) (by omega)
  unfold nextCell gridCell
  dsimp only
  rw [hx, hx']
  rcases eq_or_ne (m % cols t + 1) (cols t) with hlast' | hlast'
  · -- the last cell of a line
    have hm : m + 1 = cols t * (m / cols t + 1) + 0 := by
      rw [Nat.mul_succ]
      omega
    obtain ⟨hdiv, hmod⟩ := div_mod_of_eq hcols hm
    have hline : (0 : ℤ) ≤ (m / cols t : ℕ) := Int.natCast_nonneg _
    rw [hdiv, Nat.cast_succ] at hlast
    rw [if_pos (by omega), hdiv, hmod, toLong_of_lt (by omega) (by omega), Point.mk.injEq]
    refine ⟨rfl, ?_⟩
    push_cast
    omega
  · have hm : m + 1 = cols t * (m / cols t) + (m % cols t + 1) := by omega
    obtain ⟨hdiv, hmod⟩ := div_mod_of_eq (by omega) hm
    rw [if_neg (by omega), hdiv, hmod, Point.mk.injEq]
    refine ⟨?_, rfl⟩
    push_cast
    omega

theorem iterate_nextCell (hwidth : 8 ≤ t.targetFramebuffer.width.toNat) {y : ℤ} (hy : 0 ≤ y)
    {m : ℕ} (n : ℕ) (hlast : y + 16 * ((m + n) / cols t : ℕ) < 2 ^ 63) :
    (nextCell t)^[n] (gridCell t y m) = gridCell t y (m + n) := by
  induction n with
  | zero => rfl
  | succ n ih =>
      have hmono : (m + n) / cols t ≤ (m + (n + 1)) / cols t := Nat.div_le_div_right (by omega)
      rw [Function.iterate_succ_apply', ih (by omega)]
      exact nextCell_gridCell hwidth hy hlast

theorem lineAbove_eq {p : Point} (h0 : 0 ≤ p.y) (hy : p.y < 2 ^ 63) :
    lineAbove t p = ⟨t.targetFramebuffer.width.toNat, max (p.y - 16) 0⟩ := by
  have hup : toLong (p.y - 16) = p.y - 16 := toLong_of_lt (by omega) (by omega)
  unfold lineAbove
  rw [hup]
  dsimp only
  split <;> congr 1 <;> omega

/-- A backspace at a line start goes to the column `width - 8` of the line above. -/
theorem clearCell_of_eq_zero (hwidth : 8 ≤ t.targetFramebuffer.width.toNat) {p : Point}
    (hx : p.x = 0) (h0 : 0 ≤ p.y) (hy : p.y < 2 ^ 63) :
    clearCell t p = ⟨t.targetFramebuffer.width.toNat - 8, max (p.y - 16) 0⟩ := by
  have hwidth' := t.targetFramebuffer.width.isLt
  have hback : toLong ((t.targetFramebuffer.width.toNat : ℤ) - 8) =
      t.targetFramebuffer.width.toNat - 8 := toLong_of_lt (by omega) (by omega)
  unfold clearCell
  rw [if_pos hx, lineAbove_eq h0 hy]
  dsimp only
  rw [hback, if_neg (by omega)]

/-- Anywhere else on the grid it goes to the cell before. -/
theorem clearCell_of_ne_zero {p : Point} (hp : OnGrid t p) (hx : p.x ≠ 0) :
    clearCell t p = ⟨p.x - 8, p.y⟩ := by
  have hwidth' := t.targetFramebuffer.width.isLt
  have hle := hp.x_le
  have h0 := hp.x_nonneg
  have hdvd := hp.x_dvd
  have hback : toLong (p.x - 8) = p.x - 8 := toLong_of_lt (by omega) (by omega)
  unfold clearCell
  rw [if_neg hx]
  dsimp only
  rw [hback, if_neg (by omega)]

/-- **A backspace stays on the grid** unless it goes up a line of a width that is no multiple
of the cell's. -/
theorem onGrid_clearCell_iff (hwidth : 8 ≤ t.targetFramebuffer.width.toNat) {p : Point}
    (hp : OnGrid t p) (hy : p.y < 2 ^ 63) :
    OnGrid t (clearCell t p) ↔ (p.x = 0 → 8 ∣ t.targetFramebuffer.width.toNat) := by
  obtain ⟨hx0, hle, hdvd, hy0, hydvd⟩ := hp
  rcases eq_or_ne p.x 0 with hx | hx
  · rw [clearCell_of_eq_zero hwidth hx hy0 hy]
    constructor
    · intro h _
      have hd : (8 : ℤ) ∣ t.targetFramebuffer.width.toNat - 8 := h.x_dvd
      omega
    · intro h
      have hd := h hx
      constructor <;> dsimp only <;> omega
  · rw [clearCell_of_ne_zero ⟨hx0, hle, hdvd, hy0, hydvd⟩ hx]
    refine iff_of_true ⟨?_, ?_, ?_, hy0, hydvd⟩ fun h => absurd h hx
    all_goals dsimp only; omega

/-! ## Runs -/

/-- **The call keeps the cursor on the grid**: no line feed leaves a `long`, and a backspace at
a line start finds a width that is a multiple of the cell's. -/
def KeepsGrid (t : Target) (p : Point) : RenderOp → Prop
  | .print str =>
      p.y + 16 * ((p.x / 8 + strlen str) / (t.targetFramebuffer.width.toNat / 8)) < 2 ^ 63
  | .drawChar _ => p.y + 16 * ((p.x / 8 + 1) / (t.targetFramebuffer.width.toNat / 8)) < 2 ^ 63
  | .clearChar => p.x = 0 → 8 ∣ t.targetFramebuffer.width.toNat
  | .nextln => p.y + 16 < 2 ^ 63

instance (t : Target) (p : Point) : (op : RenderOp) → Decidable (KeepsGrid t p op)
  | .print _ => inferInstanceAs (Decidable (_ < _))
  | .drawChar _ => inferInstanceAs (Decidable (_ < _))
  | .clearChar => inferInstanceAs (Decidable (_ → _))
  | .nextln => inferInstanceAs (Decidable (_ < _))

/-- A call that keeps the cursor on the grid. -/
def GridStep (t : Target) (r r' : BasicRenderer) : Prop :=
  ∃ op, KeepsGrid t r.cursorPosition op ∧ r' = op.run t r

/-- The cursor is on the grid, and its line is a `long`. -/
structure CursorInv (t : Target) (p : Point) : Prop extends OnGrid t p where
  y_lt : p.y < 2 ^ 63

/-- Drawing `n` characters keeps the cursor on the grid. -/
theorem cursorInv_iterate (hwidth : 8 ≤ t.targetFramebuffer.width.toNat) {p : Point}
    (hp : CursorInv t p) (n : ℕ)
    (h : p.y + 16 * ((p.x / 8 + n) / (t.targetFramebuffer.width.toNat / 8)) < 2 ^ 63) :
    CursorInv t ((nextCell t)^[n] p) := by
  have hx := hp.x_nonneg
  have hcell : (p.x / 8 + n) / (t.targetFramebuffer.width.toNat / 8) =
      (((p.x / 8).toNat + n) / cols t : ℕ) := by
    have hk : ((p.x / 8).toNat : ℤ) = p.x / 8 := Int.toNat_of_nonneg (by omega)
    unfold cols
    push_cast
    rw [hk]
  rw [hcell] at h
  rw [hp.eq_gridCell, iterate_nextCell hwidth hp.y_nonneg n h]
  exact ⟨onGrid_gridCell hwidth hp.y_nonneg hp.y_dvd _, h⟩

theorem clearCell_y_lt (hwidth : 8 ≤ t.targetFramebuffer.width.toNat) {p : Point}
    (hp : CursorInv t p) : (clearCell t p).y < 2 ^ 63 := by
  have hy := hp.y_lt
  rcases eq_or_ne p.x 0 with hx | hx
  · rw [clearCell_of_eq_zero hwidth hx hp.y_nonneg hy]
    dsimp only
    omega
  · rw [clearCell_of_ne_zero hp.toOnGrid hx]
    exact hy

theorem cursorInv_step (hwidth : 8 ≤ t.targetFramebuffer.width.toNat) {r r' : BasicRenderer}
    (hstep : GridStep t r r') (hr : CursorInv t r.cursorPosition) :
    CursorInv t r'.cursorPosition := by
  obtain ⟨op, hop, rfl⟩ := hstep
  cases op with
  | print str =>
      rw [RenderOp.run, cursor_print]
      exact cursorInv_iterate hwidth hr _ hop
  | drawChar chr => exact cursorInv_iterate hwidth hr 1 (by exact_mod_cast hop)
  | clearChar =>
      rw [RenderOp.run, cursor_clearChar]
      exact ⟨(onGrid_clearCell_iff hwidth hr.toOnGrid hr.y_lt).mpr hop,
        clearCell_y_lt hwidth hr⟩
  | nextln =>
      have hy := hr.y_nonneg
      have hdvd := hr.y_dvd
      have hfeed : toLong (r.cursorPosition.y + 16) = r.cursorPosition.y + 16 :=
        toLong_of_lt (by omega) hop
      rw [RenderOp.run, cursor_nextln, hfeed]
      exact ⟨onGrid_lineStart hwidth (by omega) (by omega), hop⟩

/-- **Runs stay on the grid** as long as every call keeps the cursor there. -/
theorem onGrid_of_run (hwidth : 8 ≤ t.targetFramebuffer.width.toNat) {pixels : ℕ → BitVec 32}
    {r : BasicRenderer} (hrun : ReflTransGen (GridStep t) (init pixels) r) :
    OnGrid t r.cursorPosition := by
  have hinit : CursorInv t (init pixels).cursorPosition := by
    refine ⟨onGrid_lineStart hwidth (le_refl _) (dvd_zero 16), ?_⟩
    show (0 : ℤ) < 2 ^ 63
    omega
  exact (Runs.invariant (P := fun r : BasicRenderer => CursorInv t r.cursorPosition)
    (fun _ _ => cursorInv_step hwidth) hrun hinit).toOnGrid

/-- A character and a backspace at the start of a 640 by 480 screen. -/
theorem onGrid_of_run_backspace : OnGrid (screen 640 480)
    (render (screen 640 480) [.drawChar 0x41, .clearChar] (init fun _ => 0)).cursorPosition := by
  have hdraw : GridStep (screen 640 480) (init fun _ => 0)
      (RenderOp.run (screen 640 480) (init fun _ => 0) (.drawChar 0x41)) :=
    ⟨_, by decide, rfl⟩
  have hclear : ∀ r, GridStep (screen 640 480) r (RenderOp.run (screen 640 480) r .clearChar) :=
    fun _ => ⟨.clearChar, fun _ => by decide, rfl⟩
  exact onGrid_of_run (by decide) ((ReflTransGen.single hdraw).tail (hclear _))

/-- One backspace at the start of a 1366 by 768 screen moves the cursor to column 1358. -/
theorem not_onGrid_backspace : ¬ OnGrid (screen 1366 768)
    (render (screen 1366 768) [.clearChar] (init fun _ => 0)).cursorPosition := by
  intro h
  have hcell : clearCell (screen 1366 768) ⟨0, 0⟩ = ⟨1366 - 8, 0⟩ :=
    clearCell_of_eq_zero (by decide) rfl (le_refl _) (by decide)
  have hrun : (render (screen 1366 768) [.clearChar] (init fun _ => 0)).cursorPosition =
      clearCell (screen 1366 768) ⟨0, 0⟩ := cursor_clearChar _
  rw [hrun, hcell] at h
  exact absurd h.x_dvd (by decide)

end BasicRenderer

end EtaOs
