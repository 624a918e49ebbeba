import EtaOs.Library.Terminal
import EtaOs.Renderer.Backspace

/-!
# The renderer is a text terminal

The framebuffer is divided into the tiles of the character grid.  On a framebuffer whose width is
a multiple of a tile's, the methods of the renderer are the keys of a terminal that draws on
tiles, and no pixel outside the tiles is touched.  This ends at the line whose rows end at
`2 ^ 32`, where the loop bound wraps.

Showing a screen is a relation between the pixels of all tiles and a function from cells to
characters.  It is kept by each key, and it determines the pixels, so that nothing is lost in going
from pixels to characters.

* `device`: the terminal; `RenderOp.keys`, `handle`, the keys of a call and the methods of a key.
* `ShowsScreen`: the renderer shows a screen of the terminal; `ShowsScreen.handle`,
  `ShowsScreen.run`, with every key and with all of them it goes on to show it.
* `screenOf`, `shows_screenOf`: every renderer on the grid shows a screen.
* `ShowsScreen.unique`: the screen and the pixels at first determine the renderer.
* `ShowsText`, `ShowsScreen.showsText`: it shows the characters that are written.
-/

namespace EtaOs

open Bootloader CountedLoop TextTerminal

/-- The keys of a call. -/
def RenderOp.keys : RenderOp → List (Key (BitVec 8))
  | .print str => (str.takeWhile (· ≠ 0)).map .put
  | .drawChar chr => [.put chr]
  | .clearChar => [.back]
  | .nextln => [.newline]

namespace BasicRenderer

/-! ## Tiles -/

/-- What the pixels of a cell hold, by row and column. -/
abbrev Tile := Fin 16 → Fin 8 → BitVec 32

variable (t : Target)

/-- **The terminal** of a target: the lit pixels of a glyph get the color. -/
def device : Device (BitVec 8) Tile where
  cols := cols t
  draw chr g i k :=
    if glyphBit (t.glyphBuffer (fontOffset t chr + (i : ℕ))) k then t.color else g i k
  blank _ _ := t.clearColor

/-- The pixel in row `i` and column `k` of cell `m`. -/
def pixelAt (m i k : ℕ) : ℕ :=
  8 * (m % cols t) + k + (16 * (m / cols t) + i) * t.targetFramebuffer.pixelsPerScanline.toNat

/-- The rows of the cell end below `2 ^ 32`. -/
def Low (m : ℕ) : Prop := m / cols t + 1 < 2 ^ 28

instance (m : ℕ) : Decidable (Low t m) := inferInstanceAs (Decidable (_ < _))

/-- The screen that a renderer with the cursor at cell `m` shows. -/
def screenOf (r : BasicRenderer) (m : ℕ) : Screen Tile :=
  ⟨m, fun n i k => if Low t n then r.pixels (pixelAt t n i k) else t.clearColor⟩

/-- The method that a key stands for. -/
def handle (r : BasicRenderer) : Key (BitVec 8) → BasicRenderer
  | .put chr => drawChar t chr r
  | .back => clearChar t r
  | .newline => nextln r

/-- **The renderer shows the screen**: the cursor and the tiles are those of the screen, and all
other pixels are those that were there at first. -/
structure ShowsScreen (pixels : ℕ → BitVec 32) (r : BasicRenderer) (s : Screen Tile) : Prop where
  cursor : r.cursorPosition = gridCell t 0 s.cursor
  tiles : ∀ m, Low t m → ∀ (i : Fin 16) (k : Fin 8), r.pixels (pixelAt t m i k) = s.cell m i k
  frame : ∀ j, (∀ m, Low t m → ∀ (i : Fin 16) (k : Fin 8), j ≠ pixelAt t m i k) →
    r.pixels j = pixels j

/-- Calls are made of keys. -/
theorem run_eq_keys (op : RenderOp) (r : BasicRenderer) :
    op.run t r = op.keys.foldl (handle t) r := by
  cases op with
  | print str =>
      show print t str r = ((str.takeWhile (· ≠ 0)).map Key.put).foldl (handle t) r
      induction str generalizing r with
      | nil => rfl
      | cons chr str ih =>
          rw [print]
          split
          next h =>
            rw [List.takeWhile_cons_of_pos (by simpa using h)]
            exact ih (drawChar t chr r)
          next h =>
            rw [List.takeWhile_cons_of_neg (by simpa using h)]
            rfl
  | drawChar chr => rfl
  | clearChar => rfl
  | nextln => rfl

section Pixels

variable {t} {m : ℕ} {r : BasicRenderer}

/-- The pixels of a glyph that `draw_char` stores get the color. -/
theorem pixels_drawCharAt_of_writes {chr : BitVec 8} {xOff yOff : BitVec 32} {q : ℕ × ℕ}
    (h : DrawWrites t chr xOff yOff q) (r : BasicRenderer) :
    (drawCharAt t chr xOff yOff r).pixels
      (q.2 + q.1 * t.targetFramebuffer.pixelsPerScanline.toNat) = t.color := by
  obtain ⟨hwrap, i, hi, k, hk, hlit, rfl⟩ := h
  refine (drawCharAt_iff
    (Q := fun r => r.pixels (xOff.toNat + k + (yOff.toNat + i) *
      t.targetFramebuffer.pixelsPerScanline.toNat) = t.color)
    (H := fun i' k' => Lit t chr i' k' ∧
      xOff.toNat + k + (yOff.toNat + i) * t.targetFramebuffer.pixelsPerScanline.toNat =
        xOff.toNat + k' + (yOff.toNat + i') * t.targetFramebuffer.pixelsPerScanline.toNat)
    fun i' k' r => ?_).mpr (Or.inr ⟨hwrap, i, hi, k, hk, hlit, rfl⟩)
  unfold drawPixel
  dsimp only
  split
  next hlit' =>
    unfold storePixel
    dsimp only
    rw [Function.update_apply]
    split
    next heq => exact iff_of_true rfl (Or.inr ⟨hlit', heq⟩)
    next hne => exact (or_iff_left fun h => hne h.2).symm
  next hunlit => exact (or_iff_left fun h => hunlit h.1).symm

/-- The others are left alone. -/
theorem pixels_drawCharAt_of_ne {chr : BitVec 8} {xOff yOff : BitVec 32} {j : ℕ}
    (h : ∀ q, DrawWrites t chr xOff yOff q →
      j ≠ q.2 + q.1 * t.targetFramebuffer.pixelsPerScanline.toNat) (r : BasicRenderer) :
    (drawCharAt t chr xOff yOff r).pixels j = r.pixels j := by
  refine forRange_eq (f := fun r' : BasicRenderer => r'.pixels j) fun y r' hy hy' =>
    forRange_eq (f := fun r' : BasicRenderer => r'.pixels j) fun x r' hx hx' => ?_
  unfold drawPixel
  dsimp only
  split
  next hlit =>
    refine pixels_storePixel_of_ne _ (h (y, x) ⟨⟨by bv_omega, by bv_omega⟩, y - yOff.toNat,
      by bv_omega, x - xOff.toNat, by bv_omega, hlit, ?_⟩)
    rw [Nat.add_sub_cancel' hy, Nat.add_sub_cancel' hx]
  next => rfl

/-- Row and column of a pixel. -/
theorem eq_of_pixel_eq {n y x y' x' : ℕ} (hx : x < n) (hx' : x' < n)
    (h : x + y * n = x' + y' * n) : y = y' ∧ x = x' := by
  have hrow := congrArg (· / n) h
  rw [Nat.add_mul_div_right _ _ (Nat.zero_lt_of_lt hx), Nat.div_eq_of_lt hx,
    Nat.add_mul_div_right _ _ (Nat.zero_lt_of_lt hx), Nat.div_eq_of_lt hx', Nat.zero_add,
    Nat.zero_add] at hrow
  subst hrow
  exact ⟨rfl, Nat.add_right_cancel h⟩

/-- **The pixels of the cells are different ones.** -/
theorem pixelAt_inj (hcols : 0 < cols t)
    (hpps : t.targetFramebuffer.width.toNat ≤ t.targetFramebuffer.pixelsPerScanline.toNat)
    {m m' i i' k k' : ℕ} (hi : i < 16) (hi' : i' < 16) (hk : k < 8) (hk' : k' < 8)
    (h : pixelAt t m i k = pixelAt t m' i' k') : m = m' ∧ i = i' ∧ k = k' := by
  have hwidth : 8 * cols t ≤ t.targetFramebuffer.width.toNat := Nat.mul_div_le _ 8
  have hmod := Nat.mod_lt m hcols
  have hmod' := Nat.mod_lt m' hcols
  obtain ⟨hrow, hcolumn⟩ := eq_of_pixel_eq (by omega) (by omega) h
  have hline : m / cols t = m' / cols t := by omega
  have hplace : m % cols t = m' % cols t := by omega
  refine ⟨?_, by omega, by omega⟩
  rw [← Nat.div_add_mod m (cols t), ← Nat.div_add_mod m' (cols t), hline, hplace]

end Pixels

section Cells

variable {t} {m : ℕ} {r : BasicRenderer} (hcols : 0 < cols t)

include hcols

theorem onGrid_gridCell_zero (m : ℕ) : OnGrid t (gridCell t 0 m) := by
  have hwidth : 8 ≤ t.targetFramebuffer.width.toNat := by
    unfold cols at hcols
    omega
  exact onGrid_gridCell hwidth (le_refl 0) (dvd_zero 16) m

/-- The offsets of a cell. -/
theorem toNat_gridCell (hm : Low t m) :
    (toUInt (gridCell t 0 m).x).toNat = 8 * (m % cols t) ∧
      (toUInt (gridCell t 0 m).y).toNat = 16 * (m / cols t) ∧ 8 * (m % cols t) + 8 < 2 ^ 32 := by
  have hwidth : 8 * cols t ≤ t.targetFramebuffer.width.toNat := Nat.mul_div_le _ 8
  have hlt := t.targetFramebuffer.width.isLt
  have hmod := Nat.mod_lt m hcols
  unfold Low at hm
  unfold gridCell toUInt
  dsimp only
  rw [BitVec.toNat_ofInt, BitVec.toNat_ofInt]
  refine ⟨?_, ?_, ?_⟩ <;> omega

/-- What is stored when a glyph is drawn in a cell: its lit pixels. -/
theorem drawWrites_gridCell_iff (hm : Low t m) {chr : BitVec 8} {q : ℕ × ℕ} :
    DrawWrites t chr (toUInt (gridCell t 0 m).x) (toUInt (gridCell t 0 m).y) q ↔
      ∃ i < 16, ∃ k < 8, Lit t chr i k ∧ q = (16 * (m / cols t) + i, 8 * (m % cols t) + k) := by
  obtain ⟨hx, hy, hbound⟩ := toNat_gridCell hcols hm
  unfold DrawWrites
  rw [hx, hy]
  unfold Low at hm
  exact and_iff_right ⟨by omega, hbound⟩

/-- **A character** is drawn over what its cell holds. -/
theorem pixels_drawChar_cell
    (hpps : t.targetFramebuffer.width.toNat ≤ t.targetFramebuffer.pixelsPerScanline.toNat)
    (hm : Low t m) (hr : r.cursorPosition = gridCell t 0 m) (chr : BitVec 8) (i : Fin 16)
    (k : Fin 8) :
    (drawChar t chr r).pixels (pixelAt t m i k) =
      (device t).draw chr (fun i k => r.pixels (pixelAt t m i k)) i k := by
  show (drawCharAt t chr (toUInt r.cursorPosition.x) (toUInt r.cursorPosition.y) r).pixels _ =
    if glyphBit (t.glyphBuffer (fontOffset t chr + (i : ℕ))) k then t.color else _
  rw [hr]
  split
  next hlit =>
    exact pixels_drawCharAt_of_writes
      ((drawWrites_gridCell_iff hcols hm).mpr ⟨i, i.isLt, k, k.isLt, hlit, rfl⟩) r
  next hunlit =>
    refine pixels_drawCharAt_of_ne (fun q hq heq => ?_) r
    obtain ⟨i', hi', k', hk', hlit, rfl⟩ := (drawWrites_gridCell_iff hcols hm).mp hq
    obtain ⟨-, hi, hk⟩ := pixelAt_inj hcols hpps i.isLt hi' k.isLt hk' heq
    rw [← hi, ← hk] at hlit
    exact hunlit hlit

/-- It leaves the other pixels alone. -/
theorem pixels_drawChar_of_ne (hm : Low t m) (hr : r.cursorPosition = gridCell t 0 m)
    (chr : BitVec 8) {j : ℕ} (hj : ∀ (i : Fin 16) (k : Fin 8), j ≠ pixelAt t m i k) :
    (drawChar t chr r).pixels j = r.pixels j := by
  show (drawCharAt t chr (toUInt r.cursorPosition.x) (toUInt r.cursorPosition.y) r).pixels j = _
  rw [hr]
  refine pixels_drawCharAt_of_ne (fun q hq => ?_) r
  obtain ⟨i, hi, k, hk, -, rfl⟩ := (drawWrites_gridCell_iff hcols hm).mp hq
  exact hj ⟨i, hi⟩ ⟨k, hk⟩

omit hcols in
theorem cursorPosition_withCursor (r : BasicRenderer) (p : Point) :
    (r.withCursor p).cursorPosition = p := rfl

omit hcols in
/-- A backspace clears the same pixels wherever it starts from the same edge. -/
theorem pixels_clearChar_congr {q : Point}
    (h : clearFrom t r.cursorPosition = clearFrom t q) :
    (clearChar t r).pixels = (clearChar t (r.withCursor q)).pixels := by
  have hclear : ∀ r : BasicRenderer, (clearChar t r).pixels =
      (forRange (toUInt (clearFrom t r.cursorPosition).y).toNat
        (toUInt (clearFrom t r.cursorPosition).y + 16).toNat
        (fun y => forRange (toUInt (clearFrom t r.cursorPosition).x - 8).toNat
          (toUInt (clearFrom t r.cursorPosition).x).toNat fun x =>
            storePixel t y x t.clearColor) r).pixels := fun r => rfl
  rw [hclear, hclear, cursorPosition_withCursor, h]
  -- the loops commute with a move of the cursor
  have hcommute : forRange (toUInt (clearFrom t q).y).toNat (toUInt (clearFrom t q).y + 16).toNat
      (fun y => forRange (toUInt (clearFrom t q).x - 8).toNat (toUInt (clearFrom t q).x).toNat
        fun x => storePixel t y x t.clearColor) (r.withCursor q) =
      (forRange (toUInt (clearFrom t q).y).toNat (toUInt (clearFrom t q).y + 16).toNat
        (fun y => forRange (toUInt (clearFrom t q).x - 8).toNat (toUInt (clearFrom t q).x).toNat
          fun x => storePixel t y x t.clearColor) r).withCursor q :=
    forRange_hom (withCursor · q) fun y r => forRange_hom (withCursor · q) fun x r => rfl
  exact (congrArg pixels hcommute).symm

/-- A backspace that starts from the right edge of a cell clears it, and leaves the other pixels
alone. -/
theorem pixels_clearChar_cell (hdvd : 8 ∣ t.targetFramebuffer.width.toNat) (hm : Low t m)
    (hr : clearFrom t r.cursorPosition = ⟨(gridCell t 0 m).x + 8, (gridCell t 0 m).y⟩) :
    (∀ (i : Fin 16) (k : Fin 8), (clearChar t r).pixels (pixelAt t m i k) = t.clearColor) ∧
      ∀ j, (∀ (i : Fin 16) (k : Fin 8), j ≠ pixelAt t m i k) →
        (clearChar t r).pixels j = r.pixels j := by
  have hgrid := onGrid_gridCell_zero hcols m
  have hrows : (gridCell t 0 m).y + 16 < 2 ^ 32 := by
    unfold Low at hm
    unfold gridCell
    dsimp only
    omega
  have hedge := clearFrom_nextCell hdvd hgrid (by omega)
  rw [pixels_clearChar_congr (hr.trans hedge.symm)]
  have hpixels := fun j => pixels_clearChar (i := j) hdvd hgrid (by omega)
    (cursorPosition_withCursor r (nextCell t (gridCell t 0 m)))
  have hx : (gridCell t 0 m).x.toNat = 8 * (m % cols t) := Int.toNat_natCast _
  have hy : (gridCell t 0 m).y.toNat = 16 * (m / cols t) := by
    unfold gridCell
    dsimp only
    omega
  refine ⟨fun i k => (hpixels (pixelAt t m i k)).1 ⟨hrows, ?_⟩, fun j hj => (hpixels j).2 ?_⟩
  · refine ⟨i, i.isLt, k, k.isLt, ?_⟩
    rw [hx, hy]
    rfl
  · rintro ⟨-, i, hi, k, hk, rfl⟩
    rw [hx, hy] at hj
    exact hj ⟨i, hi⟩ ⟨k, hk⟩ rfl

end Cells

/-! ## Methods and keys -/

section ShowsScreen

variable {t} {pixels : ℕ → BitVec 32} {r : BasicRenderer} {s : Screen Tile} (hcols : 0 < cols t)
  (hdvd : 8 ∣ t.targetFramebuffer.width.toNat)
  (hpps : t.targetFramebuffer.width.toNat ≤ t.targetFramebuffer.pixelsPerScanline.toNat)

include hcols

/-- **Drawing goes to the next cell.** -/
theorem nextCell_gridCell_zero {m : ℕ} (hm : Low t m) :
    nextCell t (gridCell t 0 m) = gridCell t 0 (m + 1) := by
  have hwidth : 8 ≤ t.targetFramebuffer.width.toNat := by
    unfold cols at hcols
    omega
  have hnext : (m + 1) / cols t ≤ m / cols t + 1 := by
    rw [← Nat.add_div_right m hcols]
    exact Nat.div_le_div_right (by omega)
  unfold Low at hm
  exact nextCell_gridCell hwidth (le_refl 0) (by omega)

omit hcols in
theorem low_before {m : ℕ} (hm : Low t m) : Low t ((device t).before m) :=
  Nat.lt_of_le_of_lt (Nat.succ_le_succ ((device t).line_before m)) hm

include hdvd in
/-- **A backspace starts from the right edge of the cell before**, and at the first cell from that
of the first line. -/
theorem clearFrom_gridCell {m : ℕ} (hm : Low t m) :
    clearFrom t (gridCell t 0 m) =
      ⟨(gridCell t 0 ((device t).before m)).x + 8, (gridCell t 0 ((device t).before m)).y⟩ := by
  cases m with
  | zero =>
      have hlast : (cols t - 1) % cols t = cols t - 1 ∧ (cols t - 1) / cols t = 0 :=
        ⟨Nat.mod_eq_of_lt (by omega), Nat.div_eq_of_lt (by omega)⟩
      have hwidth : 8 * cols t = t.targetFramebuffer.width.toNat := Nat.mul_div_cancel' hdvd
      have hfirst : gridCell t 0 0 = ⟨0, 0⟩ := by
        unfold gridCell
        rw [Nat.zero_mod, Nat.zero_div]
        rfl
      have hbefore : (device t).before 0 = cols t - 1 := rfl
      unfold clearFrom
      rw [hfirst, if_pos rfl, lineAbove_eq (le_refl 0) (by decide), hbefore]
      unfold gridCell
      rw [hlast.1, hlast.2, Point.mk.injEq]
      dsimp only
      constructor <;> omega
  | succ m =>
      have hm' : Low t m := low_before hm
      have hrows : (gridCell t 0 m).y + 16 < 2 ^ 63 := by
        unfold Low at hm'
        unfold gridCell
        dsimp only
        omega
      have hbefore : (device t).before (m + 1) = m := if_neg (Nat.succ_ne_zero m)
      unfold clearFrom
      rw [hbefore, ← nextCell_gridCell_zero hcols hm']
      exact clearFrom_nextCell hdvd (onGrid_gridCell_zero hcols m) hrows

include hdvd in
/-- **A backspace goes to the cell before.** -/
theorem clearCell_gridCell {m : ℕ} (hm : Low t m) :
    clearCell t (gridCell t 0 m) = gridCell t 0 ((device t).before m) := by
  have hlow := low_before hm
  have hrows : (gridCell t 0 ((device t).before m)).y + 16 < 2 ^ 63 := by
    unfold Low at hlow
    unfold gridCell
    dsimp only
    omega
  have hgrid := onGrid_gridCell_zero hcols ((device t).before m)
  have hclear : ∀ p, clearCell t p =
      (let q : Point := ⟨toLong ((clearFrom t p).x - 8), (clearFrom t p).y⟩
       if q.x < 0 then lineAbove t q else q) := fun p => rfl
  -- both come from the same edge
  have hedge : clearFrom t (gridCell t 0 m) =
      clearFrom t (nextCell t (gridCell t 0 ((device t).before m))) :=
    (clearFrom_gridCell hcols hdvd hm).trans (clearFrom_nextCell hdvd hgrid hrows).symm
  rw [← clearCell_nextCell hdvd hgrid hrows, hclear, hclear, hedge]

include hdvd hpps in
/-- **A method does what its key does.** -/
theorem ShowsScreen.handle (h : ShowsScreen t pixels r s) (hlow : Low t s.cursor)
    (k : Key (BitVec 8)) :
    ShowsScreen t pixels (handle t r k) ((device t).press s k) := by
  cases k with
  | put chr =>
      refine ⟨?_, fun m hm i k => ?_, fun j hj => ?_⟩
      · exact (cursor_drawChar chr r).trans
          ((congrArg (nextCell t) h.cursor).trans (nextCell_gridCell_zero hcols hlow))
      · show (drawChar t chr r).pixels _ = Function.update s.cell s.cursor _ m i k
        by_cases hcell : m = s.cursor
        · subst hcell
          rw [Function.update_self, pixels_drawChar_cell hcols hpps hm h.cursor]
          exact congrFun (congrFun (congrArg ((device t).draw chr)
            (funext fun i => funext fun k => h.tiles s.cursor hm i k)) i) k
        · rw [Function.update_of_ne hcell, ← h.tiles m hm]
          exact pixels_drawChar_of_ne hcols hlow h.cursor chr fun i' k' heq =>
            hcell (pixelAt_inj hcols hpps i.isLt i'.isLt k.isLt k'.isLt heq).1
      · exact (pixels_drawChar_of_ne hcols hlow h.cursor chr (hj s.cursor hlow)).trans
          (h.frame j hj)
  | back =>
      have hbefore := low_before hlow
      obtain ⟨hcleared, hkept⟩ := pixels_clearChar_cell hcols hdvd hbefore
        ((congrArg (clearFrom t) h.cursor).trans (clearFrom_gridCell hcols hdvd hlow))
      refine ⟨?_, fun m hm i k => ?_, fun j hj => ?_⟩
      · exact (cursor_clearChar r).trans
          ((congrArg (clearCell t) h.cursor).trans (clearCell_gridCell hcols hdvd hlow))
      · show (clearChar t r).pixels _ =
          Function.update s.cell ((device t).before s.cursor) (device t).blank m i k
        by_cases hcell : m = (device t).before s.cursor
        · rw [hcell, Function.update_self]
          exact hcleared i k
        · rw [Function.update_of_ne hcell, ← h.tiles m hm]
          exact hkept _ fun i' k' heq =>
            hcell (pixelAt_inj hcols hpps i.isLt i'.isLt k.isLt k'.isLt heq).1
      · exact (hkept j (hj _ hbefore)).trans (h.frame j hj)
  | newline =>
      refine ⟨?_, h.tiles, h.frame⟩
      have hfeed : toLong ((gridCell t 0 s.cursor).y + 16) = (gridCell t 0 s.cursor).y + 16 := by
        have hline : (0 : ℤ) ≤ (s.cursor / cols t : ℕ) := Int.natCast_nonneg _
        unfold Low at hlow
        unfold gridCell
        exact toLong_of_lt (by dsimp only; omega) (by dsimp only; omega)
      refine (cursor_nextln r).trans ?_
      rw [h.cursor, hfeed]
      show _ = gridCell t 0 (cols t * (s.cursor / cols t + 1))
      unfold gridCell
      rw [Nat.mul_mod_right, Nat.mul_div_cancel_left _ hcols, Point.mk.injEq]
      dsimp only
      constructor <;> omega

include hdvd hpps in
/-- **A run of keys**, as long as the cursor stays on the low lines. -/
theorem ShowsScreen.run (h : ShowsScreen t pixels r s) {keys : List (Key (BitVec 8))}
    (hlow : ∀ pre, pre <+: keys → Low t ((device t).type pre s).cursor) :
    ShowsScreen t pixels (keys.foldl (BasicRenderer.handle t) r) ((device t).type keys s) := by
  induction keys using List.reverseRecOn with
  | nil => exact h
  | append_singleton keys k ih =>
      have hprefix := List.prefix_append keys [k]
      rw [List.foldl_append, Device.type_concat]
      exact (ih fun pre hpre => hlow pre (hpre.trans hprefix)).handle hcols hdvd hpps
        (hlow keys hprefix) k

omit hcols in
/-- A renderer on the grid shows its screen. -/
theorem shows_screenOf {m : ℕ} (hr : r.cursorPosition = gridCell t 0 m) :
    ShowsScreen t r.pixels r (screenOf t r m) := by
  refine ⟨hr, fun n hn i k => ?_, fun j _ => rfl⟩
  unfold screenOf
  exact (if_pos hn).symm

omit hcols in
/-- When the low cells from the cursor on have the clear color, the screen is erased there. -/
theorem blankAhead_screenOf {m : ℕ}
    (h : ∀ n, m ≤ n → Low t n → ∀ (i : Fin 16) (k : Fin 8),
      r.pixels (pixelAt t n i k) = t.clearColor) :
    (device t).BlankAhead (screenOf t r m) := by
  intro n hn
  funext i k
  unfold screenOf
  dsimp only
  split
  next hlow => exact h n hn hlow i k
  next => rfl

omit hcols in
/-- The screen and the pixels at first determine cursor and pixels. -/
theorem ShowsScreen.unique {r' : BasicRenderer} (h : ShowsScreen t pixels r s)
    (h' : ShowsScreen t pixels r' s) :
    r.cursorPosition = r'.cursorPosition ∧ r.pixels = r'.pixels := by
  refine ⟨h.cursor.trans h'.cursor.symm, funext fun j => ?_⟩
  by_cases hj : ∀ m, Low t m → ∀ (i : Fin 16) (k : Fin 8), j ≠ pixelAt t m i k
  · exact (h.frame j hj).trans (h'.frame j hj).symm
  · push Not at hj
    obtain ⟨m, hm, i, k, rfl⟩ := hj
    exact (h.tiles m hm i k).trans (h'.tiles m hm i k).symm

end ShowsScreen

/-! ## What is written -/

/-- **The renderer shows what is written**: the cursor is at its cell, a pixel of a cell has the
color when it is lit in the glyph of a character of the cell, and otherwise is cleared or as it
was at first; all other pixels are as they were at first. -/
structure ShowsText (pixels : ℕ → BitVec 32) (r : BasicRenderer)
    (s : Screen (Written (BitVec 8))) : Prop where
  cursor : r.cursorPosition = gridCell t 0 s.cursor
  lit : ∀ m, Low t m → ∀ (i : Fin 16) (k : Fin 8), (∃ chr ∈ (s.cell m).chars, Lit t chr i k) →
    r.pixels (pixelAt t m i k) = t.color
  unlit : ∀ m, Low t m → ∀ (i : Fin 16) (k : Fin 8), (∀ chr ∈ (s.cell m).chars, ¬ Lit t chr i k) →
    r.pixels (pixelAt t m i k) =
      if (s.cell m).erased then t.clearColor else pixels (pixelAt t m i k)
  frame : ∀ j, (∀ m, Low t m → ∀ (i : Fin 16) (k : Fin 8), j ≠ pixelAt t m i k) →
    r.pixels j = pixels j

section Text

variable {t}

/-- Characters that are drawn over one another. -/
theorem foldr_draw (chars : List (BitVec 8)) (g : Tile) (i : Fin 16) (k : Fin 8) :
    ((∃ chr ∈ chars, Lit t chr i k) → chars.foldr (device t).draw g i k = t.color) ∧
      ((∀ chr ∈ chars, ¬ Lit t chr i k) → chars.foldr (device t).draw g i k = g i k) := by
  induction chars with
  | nil => exact ⟨fun ⟨_, hmem, _⟩ => absurd hmem List.not_mem_nil, fun _ => rfl⟩
  | cons chr chars ih =>
      rw [List.foldr_cons, List.exists_mem_cons_iff, List.forall_mem_cons]
      constructor
      · intro h
        by_cases hlit : Lit t chr i k
        · exact if_pos hlit
        · exact (if_neg hlit).trans (ih.1 (h.resolve_left hlit))
      · rintro ⟨hunlit, h⟩
        exact (if_neg hunlit).trans (ih.2 h)

/-- A renderer that shows the screen shows what is written on it. -/
theorem ShowsScreen.showsText {r r' : BasicRenderer} {m : ℕ} {keys : List (Key (BitVec 8))}
    (h : ShowsScreen t r.pixels r' ((device t).type keys (screenOf t r m))) :
    ShowsText t r.pixels r' ((written _ (cols t)).type keys (Screen.unwritten m)) := by
  obtain ⟨hcursor, hcell⟩ := (device t).type_written keys (screenOf t r m)
  have hlook : ∀ n, Low t n → ∀ (i : Fin 16) (k : Fin 8), r'.pixels (pixelAt t n i k) =
      (((written _ (cols t)).type keys (Screen.unwritten m)).cell n).look (device t)
        ((screenOf t r m).cell n) i k :=
    fun n hn i k => (h.tiles n hn i k).trans (congrFun (congrFun (hcell n) i) k)
  refine ⟨h.cursor.trans (congrArg _ hcursor), fun n hn i k hlit => ?_, fun n hn i k hunlit => ?_,
    h.frame⟩
  · exact (hlook n hn i k).trans ((foldr_draw _ _ i k).1 hlit)
  · refine (hlook n hn i k).trans (((foldr_draw _ _ i k).2 hunlit).trans ?_)
    split
    next => rfl
    next => exact if_pos hn

end Text

end BasicRenderer

end EtaOs
