import EtaOs.Renderer.Stores

/-!
# Backspacing over printed text

A backspace goes back over the wrap of a line when `8` divides the width, and clears the cell it
arrives at.  The lowest cell with rows below `2 ^ 32` is an exception: its loop bound `y + 16`
wraps to zero, and it is neither drawn nor cleared.

To undo something is a statement about pixels, as there is no text on the screen to compare with.
So the methods are described by the pixels they change, and the condition compares the cells that
are painted with those that are cleared again.

* `clearFrom_nextCell`, `clearCell_nextCell`: a backspace after a character.
* `InCell`, `Painted`: the pixels of a cell, and those that the loops reach.
* `pixels_drawChar`, `pixels_clearChar`: what the methods do to a pixel.
* `pixels_backspaced`: what is left of a printed string.
* `undoes_iff`: when backspacing undoes printing.
-/

namespace EtaOs

open Bootloader CountedLoop

namespace BasicRenderer

variable {t : Target}

/-! ## The cursor -/

/-- The move of a character on the grid. -/
theorem OnGrid.nextCell_eq {p : Point} (hp : OnGrid t p) (hy : p.y + 16 < 2 ^ 63) :
    nextCell t p =
      if p.x + 16 > t.targetFramebuffer.width.toNat then ⟨0, p.y + 16⟩ else ⟨p.x + 8, p.y⟩ := by
  have hle := hp.x_le
  have hwidth := t.targetFramebuffer.width.isLt
  exact BasicRenderer.nextCell_eq hp.x_nonneg (by omega) hp.y_nonneg hy

/-- A backspace after a character starts from the right edge of its cell. -/
theorem clearFrom_nextCell (hdvd : 8 ∣ t.targetFramebuffer.width.toNat) {p : Point}
    (hp : OnGrid t p) (hy : p.y + 16 < 2 ^ 63) :
    (if (nextCell t p).x = 0 then lineAbove t (nextCell t p) else nextCell t p) =
      ⟨p.x + 8, p.y⟩ := by
  have hnext := hp.nextCell_eq hy
  obtain ⟨hx0, hle, hxdvd, hy0, -⟩ := hp
  split at hnext
  next hwrap =>
    rw [hnext, if_pos rfl, lineAbove_eq (by dsimp only; omega) hy]
    dsimp only
    rw [Point.mk.injEq]
    constructor <;> omega
  next hline => rw [hnext, if_neg (by dsimp only; omega)]

/-- **A backspace goes back** over a character. -/
theorem clearCell_nextCell (hdvd : 8 ∣ t.targetFramebuffer.width.toNat) {p : Point}
    (hp : OnGrid t p) (hy : p.y + 16 < 2 ^ 63) : clearCell t (nextCell t p) = p := by
  have hx0 := hp.x_nonneg
  have hle := hp.x_le
  have hwidth := t.targetFramebuffer.width.isLt
  have hback : toLong (p.x + 8 - 8) = p.x := by
    rw [Int.add_sub_cancel]
    exact toLong_of_lt (by omega) (by omega)
  unfold clearCell
  rw [clearFrom_nextCell hdvd hp hy]
  dsimp only
  rw [hback, if_neg (Int.not_lt.mpr hx0)]

theorem onGrid_nextCell {p : Point} (hp : OnGrid t p) (hy : p.y + 16 < 2 ^ 63) :
    OnGrid t (nextCell t p) := by
  have hnext := hp.nextCell_eq hy
  obtain ⟨hx0, hle, hxdvd, hy0, hydvd⟩ := hp
  split at hnext
  next hwrap =>
    rw [hnext]
    exact onGrid_lineStart (by omega) (by omega) (by omega)
  next hline =>
    rw [hnext]
    refine ⟨?_, ?_, ?_, hy0, hydvd⟩ <;> dsimp only <;> omega

/-! ## The pixels of a cell -/

/-- Pixel `i` belongs to the cell at `p`. -/
def InCell (t : Target) (p : Point) (i : ℕ) : Prop :=
  ∃ a < 16, ∃ b < 8,
    i = p.x.toNat + b + (p.y.toNat + a) * t.targetFramebuffer.pixelsPerScanline.toNat

/-- Pixel `i` belongs to the cell, and the loop bound of the cell's rows does not wrap. -/
def Painted (t : Target) (p : Point) (i : ℕ) : Prop := p.y + 16 < 2 ^ 32 ∧ InCell t p i

/-- A pixel of a cell is in one of its rows. -/
theorem InCell.row_eq {p : Point} {i : ℕ} (h : InCell t p i) (hp : OnGrid t p)
    (hpps : t.targetFramebuffer.width.toNat ≤ t.targetFramebuffer.pixelsPerScanline.toNat) :
    p.y = 16 * (i / t.targetFramebuffer.pixelsPerScanline.toNat / 16 : ℕ) := by
  obtain ⟨a, ha, b, hb, rfl⟩ := h
  have hx0 := hp.x_nonneg
  have hle := hp.x_le
  have hy0 := hp.y_nonneg
  have hydvd := hp.y_dvd
  have hcolumn : p.x.toNat + b < t.targetFramebuffer.pixelsPerScanline.toNat := by omega
  rw [Nat.add_mul_div_right _ _ (Nat.zero_lt_of_lt hcolumn), Nat.div_eq_of_lt hcolumn]
  omega

/-- Loops over rows and columns leave the other pixels alone. -/
theorem pixels_forRange_of_ne {f : ℕ → ℕ → BasicRenderer → BasicRenderer} {i y₀ y₁ x₀ x₁ : ℕ}
    (hf : ∀ y x r, i ≠ x + y * t.targetFramebuffer.pixelsPerScanline.toNat →
      (f y x r).pixels i = r.pixels i)
    (hi : ∀ y x, y₀ ≤ y → y < y₁ → x₀ ≤ x → x < x₁ →
      i ≠ x + y * t.targetFramebuffer.pixelsPerScanline.toNat) (r : BasicRenderer) :
    (forRange y₀ y₁ (fun y => forRange x₀ x₁ (f y)) r).pixels i = r.pixels i := by
  exact forRange_eq (f := fun r' : BasicRenderer => r'.pixels i) fun y r' hy hy' =>
    forRange_eq (f := fun r' : BasicRenderer => r'.pixels i) fun x r' hx hx' =>
      hf y x r' (hi y x hy hy' hx hx')

theorem pixels_storePixel_of_ne {y x i : ℕ} {c : BitVec 32} (r : BasicRenderer)
    (h : i ≠ x + y * t.targetFramebuffer.pixelsPerScanline.toNat) :
    (storePixel t y x c r).pixels i = r.pixels i := Function.update_of_ne h _ _

section Cell

variable {p : Point} {r : BasicRenderer} {i : ℕ}

/-- The unsigned offsets of a cell. -/
theorem toNat_toUInt {v : ℤ} (h0 : 0 ≤ v) (hv : v < 2 ^ 32) : (toUInt v).toNat = v.toNat := by
  unfold toUInt
  rw [BitVec.toNat_ofInt]
  omega

/-- A row and a column that the loops of a cell reach give a painted pixel. -/
theorem painted_of_mem (hp : OnGrid t p) (hy : p.y + 16 ≤ 2 ^ 32) {y x : ℕ}
    (hlo : (toUInt p.y).toNat ≤ y) (hhi : y < (toUInt p.y + 16).toNat)
    (hxlo : p.x.toNat ≤ x) (hxhi : x < p.x.toNat + 8) :
    Painted t p (x + y * t.targetFramebuffer.pixelsPerScanline.toNat) := by
  have hy0 := hp.y_nonneg
  have hoff : (toUInt p.y).toNat = p.y.toNat := toNat_toUInt hy0 (by omega)
  have hshown : p.y + 16 < 2 ^ 32 := by
    by_contra hlast
    have hwrap : (toUInt p.y + 16).toNat = 0 := by bv_omega
    omega
  have hbound : (toUInt p.y + 16).toNat = p.y.toNat + 16 := by bv_omega
  refine ⟨hshown, y - p.y.toNat, by omega, x - p.x.toNat, by omega, ?_⟩
  congr 1
  · omega
  · congr 1
    omega

/-- **Drawing a character** changes painted pixels only. -/
theorem pixels_drawChar (chr : BitVec 8) (hp : OnGrid t r.cursorPosition)
    (hy : r.cursorPosition.y + 16 ≤ 2 ^ 32) (hi : ¬ Painted t r.cursorPosition i) :
    (drawChar t chr r).pixels i = r.pixels i := by
  have hx0 := hp.x_nonneg
  have hle := hp.x_le
  have hwidth := t.targetFramebuffer.width.isLt
  have hxoff : (toUInt r.cursorPosition.x).toNat = r.cursorPosition.x.toNat :=
    toNat_toUInt hx0 (by omega)
  have hxbound : (toUInt r.cursorPosition.x + 8).toNat = r.cursorPosition.x.toNat + 8 := by
    bv_omega
  refine pixels_forRange_of_ne (t := t) ?_ ?_ r
  · intro y x r' hne
    unfold drawPixel
    dsimp only
    split
    · exact pixels_storePixel_of_ne _ hne
    · rfl
  · rintro y x hlo hhi hxlo hxhi rfl
    exact hi (painted_of_mem hp hy hlo hhi (by omega) (by omega))

/-- **A backspace after a character** clears the painted pixels of its cell, and no others. -/
theorem pixels_clearChar (hdvd : 8 ∣ t.targetFramebuffer.width.toNat) (hp : OnGrid t p)
    (hy : p.y + 16 ≤ 2 ^ 32) (hr : r.cursorPosition = nextCell t p) :
    (Painted t p i → (clearChar t r).pixels i = t.clearColor) ∧
      (¬ Painted t p i → (clearChar t r).pixels i = r.pixels i) := by
  have hx0 := hp.x_nonneg
  have hle := hp.x_le
  have hy0 := hp.y_nonneg
  have hwidth := t.targetFramebuffer.width.isLt
  have hxoff : (toUInt (p.x + 8)).toNat = p.x.toNat + 8 := by
    rw [toNat_toUInt (by omega) (by omega)]
    omega
  have hxoff' : (toUInt (p.x + 8) - 8).toNat = p.x.toNat := by bv_omega
  have hclear : (clearChar t r).pixels = (forRange (toUInt p.y).toNat (toUInt p.y + 16).toNat
      (fun y => forRange (toUInt (p.x + 8) - 8).toNat (toUInt (p.x + 8)).toNat fun x =>
        storePixel t y x t.clearColor) r).pixels := by
    unfold clearChar
    rw [hr, clearFrom_nextCell hdvd hp (by omega)]
    rfl
  rw [hclear]
  constructor
  · rintro ⟨hshown, a, ha, b, hb, rfl⟩
    have hyoff : (toUInt p.y).toNat = p.y.toNat := toNat_toUInt hy0 (by omega)
    -- a store of the clear color switches on that the pixel has it
    refine (clearLoops_iff (Q := fun r : BasicRenderer => r.pixels _ = t.clearColor)
      (H := fun y x => p.x.toNat + b + (p.y.toNat + a) *
        t.targetFramebuffer.pixelsPerScanline.toNat =
          x + y * t.targetFramebuffer.pixelsPerScanline.toNat) fun y x r => ?_).mpr (Or.inr ?_)
    · unfold storePixel
      dsimp only
      rw [Function.update_apply]
      split
      next heq => exact iff_of_true rfl (Or.inr heq)
      next hne => exact (or_iff_left hne).symm
    · refine ⟨⟨by omega, by omega⟩, a, ha, b, hb, ?_⟩
      rw [hyoff, hxoff, Nat.add_sub_cancel]
  · intro hi
    refine pixels_forRange_of_ne (t := t) (fun y x r' hne => pixels_storePixel_of_ne r' hne) ?_ r
    rintro y x hlo hhi hxlo hxhi rfl
    exact hi (painted_of_mem hp hy hlo hhi (by omega) (by omega))

end Cell

/-! ## Printing and backspacing -/

/-- The renderer after a string is printed and as many characters are cleared. -/
def backspaced (t : Target) (str : List (BitVec 8)) (r : BasicRenderer) : BasicRenderer :=
  (clearChar t)^[strlen str] (print t str r)

/-- The cells of a string are on the grid. -/
theorem onGrid_iterate {p : Point} (hp : OnGrid t p) {n : ℕ}
    (hrows : ∀ m < n, ((nextCell t)^[m] p).y + 16 ≤ 2 ^ 32) : OnGrid t ((nextCell t)^[n] p) := by
  induction n with
  | zero => exact hp
  | succ n ih =>
      have hlast := hrows n (Nat.lt_succ_self n)
      rw [Function.iterate_succ_apply']
      exact onGrid_nextCell (ih fun m hm => hrows m (Nat.lt_succ_of_lt hm)) (by omega)

/-- **What is left of a printed string**: the cursor is back, the painted pixels of its cells are
cleared, and all others are as before. -/
theorem pixels_backspaced (hdvd : 8 ∣ t.targetFramebuffer.width.toNat) (str : List (BitVec 8))
    (r : BasicRenderer) (hr : OnGrid t r.cursorPosition)
    (hrows : ∀ n < strlen str, ((nextCell t)^[n] r.cursorPosition).y + 16 ≤ 2 ^ 32) :
    (backspaced t str r).cursorPosition = r.cursorPosition ∧ ∀ i,
      ((∃ n < strlen str, Painted t ((nextCell t)^[n] r.cursorPosition) i) →
        (backspaced t str r).pixels i = t.clearColor) ∧
      ((∀ n < strlen str, ¬ Painted t ((nextCell t)^[n] r.cursorPosition) i) →
        (backspaced t str r).pixels i = r.pixels i) := by
  induction str generalizing r with
  | nil =>
      refine ⟨rfl, fun i => ⟨?_, fun _ => rfl⟩⟩
      rintro ⟨n, hn, -⟩
      exact absurd hn (Nat.not_lt_zero n)
  | cons chr str ih =>
      rcases eq_or_ne chr 0 with hnul | hchr
      · have hsame : backspaced t (chr :: str) r = r := by
          rw [backspaced, strlen_cons_of_eq hnul, print, if_neg (not_not.mpr hnul)]
          rfl
        rw [hsame, strlen_cons_of_eq hnul]
        refine ⟨rfl, fun i => ⟨?_, fun _ => rfl⟩⟩
        rintro ⟨n, hn, -⟩
        exact absurd hn (Nat.not_lt_zero n)
      · have hback : backspaced t (chr :: str) r =
            clearChar t (backspaced t str (drawChar t chr r)) := by
          rw [backspaced, strlen_cons_of_ne hchr, Function.iterate_succ_apply', print, if_pos hchr]
          rfl
        rw [strlen_cons_of_ne hchr] at hrows ⊢
        have hfirst : r.cursorPosition.y + 16 ≤ 2 ^ 32 := hrows 0 (Nat.succ_pos _)
        have hcursor := cursor_drawChar (t := t) chr r
        -- the rest of the string is printed and cleared from the second cell on
        obtain ⟨hrest, hpixels⟩ := ih (drawChar t chr r)
          (hcursor ▸ onGrid_nextCell hr (by omega))
          fun n hn => by rw [hcursor]; exact hrows (n + 1) (Nat.succ_lt_succ hn)
        rw [hcursor] at hrest hpixels
        rw [hback, cursor_clearChar, hrest]
        refine ⟨clearCell_nextCell hdvd hr (by omega), fun i => ?_⟩
        obtain ⟨hcleared, hkept⟩ := pixels_clearChar (i := i) hdvd hr hfirst hrest
        rw [Nat.exists_lt_succ_left, Nat.forall_lt_succ_left]
        constructor
        · intro hpainted
          by_cases hi : Painted t r.cursorPosition i
          · exact hcleared hi
          · rw [hkept hi]
            exact (hpixels i).1 (hpainted.resolve_left hi)
        · rintro ⟨hi, hothers⟩
          rw [hkept hi, (hpixels i).2 hothers]
          exact pixels_drawChar chr hr hfirst hi

/-- **Backspacing undoes printing**: the cursor is back, all pixels of the cells of the string
have the clear color, and all others are as before. -/
structure Undoes (t : Target) (str : List (BitVec 8)) (r : BasicRenderer) : Prop where
  cursor : (backspaced t str r).cursorPosition = r.cursorPosition
  cleared : ∀ n < strlen str, ∀ i, InCell t ((nextCell t)^[n] r.cursorPosition) i →
    (backspaced t str r).pixels i = t.clearColor
  frame : ∀ i, (∀ n < strlen str, ¬ InCell t ((nextCell t)^[n] r.cursorPosition) i) →
    (backspaced t str r).pixels i = r.pixels i

/-- **When backspacing undoes printing**: when the lowest cell is not among those of the string,
or has the clear color already. -/
theorem undoes_iff (str : List (BitVec 8)) (r : BasicRenderer)
    (hdvd : 8 ∣ t.targetFramebuffer.width.toNat)
    (hpps : t.targetFramebuffer.width.toNat ≤ t.targetFramebuffer.pixelsPerScanline.toNat)
    (hr : OnGrid t r.cursorPosition)
    (hrows : ∀ n < strlen str, ((nextCell t)^[n] r.cursorPosition).y + 16 ≤ 2 ^ 32) :
    Undoes t str r ↔ ∀ n < strlen str, ((nextCell t)^[n] r.cursorPosition).y + 16 = 2 ^ 32 →
      ∀ i, InCell t ((nextCell t)^[n] r.cursorPosition) i → r.pixels i = t.clearColor := by
  obtain ⟨hcursor, hpixels⟩ := pixels_backspaced hdvd str r hr hrows
  have hgrid : ∀ n < strlen str, OnGrid t ((nextCell t)^[n] r.cursorPosition) :=
    fun n hn => onGrid_iterate hr fun m hm => hrows m (Nat.lt_trans hm hn)
  constructor
  · intro hundoes n hn hlast i hi
    have hunpainted : ∀ m < strlen str, ¬ Painted t ((nextCell t)^[m] r.cursorPosition) i := by
      rintro m hm ⟨hshown, hmi⟩
      -- the rows of a pixel are those of one line of cells only
      have hrow := hi.row_eq (hgrid n hn) hpps
      rw [← hmi.row_eq (hgrid m hm) hpps] at hrow
      omega
    rw [← (hpixels i).2 hunpainted]
    exact hundoes.cleared n hn i hi
  · intro hclear
    refine ⟨hcursor, fun n hn i hi => ?_, fun i hi => (hpixels i).2 fun n hn h => hi n hn h.2⟩
    by_cases hpainted : ∃ m < strlen str, Painted t ((nextCell t)^[m] r.cursorPosition) i
    · exact (hpixels i).1 hpainted
    · have hlast : ((nextCell t)^[n] r.cursorPosition).y + 16 = 2 ^ 32 := by
        have hle := hrows n hn
        by_contra hne
        exact hpainted ⟨n, hn, by omega, hi⟩
      rw [(hpixels i).2 fun m hm h => hpainted ⟨m, hm, h⟩]
      exact hclear n hn hlast i hi

/-- A renderer with the cursor at the start of a line, and all pixels of the color 1. -/
def atLine (y : ℤ) : BasicRenderer := (init fun _ => 1).withCursor ⟨0, y⟩

/-- A character in the first line is undone. -/
theorem undoes_firstLine : Undoes (screen 640 480) [0x41] (atLine 0) := by
  have hgrid : OnGrid (screen 640 480) ⟨0, 0⟩ :=
    onGrid_lineStart (by decide) (le_refl _) (dvd_zero 16)
  refine (undoes_iff _ _ (by decide) (le_refl _) hgrid (by decide)).mpr ?_
  intro n hn hlast
  obtain rfl : n = 0 := Nat.lt_one_iff.mp hn
  exact absurd hlast (by decide)

/-- A character in the line with the rows up to `2 ^ 32 - 1` leaves its pixels as they were. -/
theorem not_undoes_lastLine : ¬ Undoes (screen 640 480) [0x41] (atLine (2 ^ 32 - 16)) := by
  intro hundoes
  have hcell : InCell (screen 640 480) ((nextCell (screen 640 480))^[0] ⟨0, 2 ^ 32 - 16⟩)
      ((2 ^ 32 - 16) * 640) := ⟨0, by decide, 0, by decide, by decide⟩
  have hcleared := hundoes.cleared 0 (by decide) _ hcell
  have hsame : (backspaced (screen 640 480) [0x41] (atLine (2 ^ 32 - 16))).pixels
      ((2 ^ 32 - 16) * 640) = 1 := by
    have hgrid : OnGrid (screen 640 480) ⟨0, 2 ^ 32 - 16⟩ :=
      onGrid_lineStart (by decide) (by decide) (by decide)
    refine ((pixels_backspaced (by decide) _ _ hgrid (by decide)).2 _).2 ?_
    rintro n hn ⟨hshown, -⟩
    obtain rfl : n = 0 := Nat.lt_one_iff.mp hn
    exact absurd hshown (by decide)
  rw [hsame] at hcleared
  exact absurd hcleared (by decide)

end BasicRenderer

end EtaOs
