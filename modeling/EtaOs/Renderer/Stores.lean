import EtaOs.Renderer.Cursor

/-!
# The pixels text output stores

No method looks at the height of the framebuffer, and a cursor at the right edge is drawn at
like any other.  So every call stores exactly the pixels of its cells, wherever they are.

The pixels of a call are known before it is made, from the cursor, the font and the character.  So
the question which runs stay inside is one about the cells that they visit, and the answer is an
equivalence.

* `drawCharAt_iff`, `clearLoops_iff`: the loops over the pixels of a cell.
* `mem_stores_drawCharAt`, `mem_stores_clearChar`: the pixels a call stores.
* `DrawnInside`, `ClearedInside`: the pixels of a cell are in the framebuffer.
* `stores_inside_iff`: the runs that store only pixels of the framebuffer.
-/

namespace EtaOs

open Bootloader CountedLoop

namespace BasicRenderer

variable {t : Target}

/-- The pixel, given by row and column, is in the framebuffer. -/
def Inside (t : Target) (q : ℕ × ℕ) : Prop :=
  q.1 < t.targetFramebuffer.height.toNat ∧ q.2 < t.targetFramebuffer.width.toNat

/-- Pixel `(i, k)` of the cell is lit in the glyph of the character. -/
def Lit (t : Target) (chr : BitVec 8) (i k : ℕ) : Prop :=
  glyphBit (t.glyphBuffer (fontOffset t chr + i)) k = true

/-! ## The loops over the pixels of a cell -/

/-- **What the pixels of a glyph switch on**, drawing the glyph switches on, unless a loop bound
wraps. -/
theorem drawCharAt_iff {chr : BitVec 8} {xOff yOff : BitVec 32} {r : BasicRenderer}
    {Q : BasicRenderer → Prop} {H : ℕ → ℕ → Prop}
    (hpixel : ∀ (i k : ℕ) r,
      Q (drawPixel t (fontOffset t chr + i) (yOff.toNat + i) (xOff.toNat + k) k r) ↔ Q r ∨ H i k) :
      Q (drawCharAt t chr xOff yOff r) ↔
        Q r ∨ (yOff.toNat + 16 < 2 ^ 32 ∧ xOff.toNat + 8 < 2 ^ 32) ∧
          ∃ i < 16, ∃ k < 8, H i k := by
  have hrow : ∀ y (r : BasicRenderer), yOff.toNat ≤ y → (Q (forRange xOff.toNat (xOff + 8).toNat
      (fun x => drawPixel t (fontOffset t chr + (y - yOff.toNat : ℕ)) y x (x - xOff.toNat)) r) ↔
      Q r ∨ ∃ x, xOff.toNat ≤ x ∧ x < (xOff + 8).toNat ∧ H (y - yOff.toNat) (x - xOff.toNat)) := by
    intro y r hy
    refine forRange_iff fun x r hx _ => ?_
    have hstep := hpixel (y - yOff.toNat) (x - xOff.toNat) r
    rwa [Nat.add_sub_cancel' hy, Nat.add_sub_cancel' hx] at hstep
  refine (forRange_iff fun y r hy _ => hrow y r hy).trans (or_congr_right ⟨?_, ?_⟩)
  · rintro ⟨y, hy, hy', x, hx, hx', hpix⟩
    exact ⟨⟨by bv_omega, by bv_omega⟩, _, by bv_omega, _, by bv_omega, hpix⟩
  · rintro ⟨⟨hyOff, hxOff⟩, i, hi, k, hk, hpix⟩
    refine ⟨yOff.toNat + i, by omega, by bv_omega, xOff.toNat + k, by omega, by bv_omega, ?_⟩
    rwa [Nat.add_sub_cancel_left, Nat.add_sub_cancel_left]

/-- **What the stores of a cell switch on**, the loops of `clear_char` switch on, if there are
eight columns and the loop bound does not wrap. -/
theorem clearLoops_iff {c : BitVec 32} {xOff yOff : BitVec 32} {r : BasicRenderer}
    {Q : BasicRenderer → Prop} {H : ℕ → ℕ → Prop}
    (hpixel : ∀ y x r, Q (storePixel t y x c r) ↔ Q r ∨ H y x) :
    Q (forRange yOff.toNat (yOff + 16).toNat (fun y =>
      forRange (xOff - 8).toNat xOff.toNat fun x => storePixel t y x c) r) ↔
      Q r ∨ (yOff.toNat + 16 < 2 ^ 32 ∧ 8 ≤ xOff.toNat) ∧
        ∃ i < 16, ∃ k < 8, H (yOff.toNat + i) (xOff.toNat - 8 + k) := by
  refine (forRange_iff fun y r _ _ => forRange_iff fun x r _ _ => hpixel y x r).trans
    (or_congr_right ⟨?_, ?_⟩)
  · rintro ⟨y, hy, hy', x, hx, hx', hpix⟩
    have hxOff : 8 ≤ xOff.toNat := by bv_omega
    have hx8 : (xOff - 8).toNat = xOff.toNat - 8 := by bv_omega
    refine ⟨⟨by bv_omega, hxOff⟩, y - yOff.toNat, by bv_omega, x - (xOff.toNat - 8), by omega, ?_⟩
    rwa [Nat.add_sub_cancel' hy, Nat.add_sub_cancel' (by omega)]
  · rintro ⟨⟨hyOff, hxOff⟩, i, hi, k, hk, hpix⟩
    exact ⟨yOff.toNat + i, by omega, by bv_omega, xOff.toNat - 8 + k, by bv_omega, by omega, hpix⟩

/-! ## Stores of a method -/

theorem mem_stores_drawPixel (fontPtr : ℤ) (y x k : ℕ) (r : BasicRenderer) (q : ℕ × ℕ) :
    q ∈ (drawPixel t fontPtr y x k r).stores ↔
      q ∈ r.stores ∨ (glyphBit (t.glyphBuffer fontPtr) k = true ∧ q = (y, x)) := by
  unfold drawPixel
  dsimp only
  split
  next h => exact List.mem_cons.trans (or_comm.trans (or_congr_right (and_iff_right h).symm))
  next h => exact (or_iff_left fun hc => h hc.1).symm

/-- The pixels `draw_char` stores with the cursor at `p`: the lit ones of the cell, unless a
loop bound wraps. -/
def DrawWrites (t : Target) (chr : BitVec 8) (xOff yOff : BitVec 32) (q : ℕ × ℕ) : Prop :=
  (yOff.toNat + 16 < 2 ^ 32 ∧ xOff.toNat + 8 < 2 ^ 32) ∧
    ∃ i < 16, ∃ k < 8, Lit t chr i k ∧ q = (yOff.toNat + i, xOff.toNat + k)

/-- The pixels `clear_char` stores: those of the cell left of its column, if there are eight
columns and the loop bound does not wrap. -/
def ClearWrites (xOff yOff : BitVec 32) (q : ℕ × ℕ) : Prop :=
  (yOff.toNat + 16 < 2 ^ 32 ∧ 8 ≤ xOff.toNat) ∧
    ∃ i < 16, ∃ k < 8, q = (yOff.toNat + i, xOff.toNat - 8 + k)

theorem mem_stores_drawCharAt (chr : BitVec 8) (xOff yOff : BitVec 32) (r : BasicRenderer)
    (q : ℕ × ℕ) : q ∈ (drawCharAt t chr xOff yOff r).stores ↔
      q ∈ r.stores ∨ DrawWrites t chr xOff yOff q :=
  drawCharAt_iff (Q := fun r : BasicRenderer => q ∈ r.stores) fun _ _ r =>
    mem_stores_drawPixel _ _ _ _ r q

theorem mem_stores_drawChar (chr : BitVec 8) (r : BasicRenderer) (q : ℕ × ℕ) :
    q ∈ (drawChar t chr r).stores ↔ q ∈ r.stores ∨
      DrawWrites t chr (toUInt r.cursorPosition.x) (toUInt r.cursorPosition.y) q :=
  mem_stores_drawCharAt chr _ _ r q

/-- **The pixels `print` stores.** -/
theorem mem_stores_print (str : List (BitVec 8)) (r : BasicRenderer) (q : ℕ × ℕ) :
    q ∈ (print t str r).stores ↔ q ∈ r.stores ∨ ∃ n < strlen str,
      DrawWrites t (str.getD n 0) (toUInt ((nextCell t)^[n] r.cursorPosition).x)
        (toUInt ((nextCell t)^[n] r.cursorPosition).y) q := by
  induction str generalizing r with
  | nil =>
      refine (or_iff_left ?_).symm
      rintro ⟨n, hn, -⟩
      exact Nat.not_lt_zero n hn
  | cons chr str ih =>
      rw [print]
      split
      next h =>
        rw [ih, mem_stores_drawChar, strlen_cons_of_ne h, Nat.exists_lt_succ_left, or_assoc]
        rfl
      next h =>
        rw [strlen_cons_of_eq (not_not.mp h)]
        refine (or_iff_left ?_).symm
        rintro ⟨n, hn, -⟩
        exact Nat.not_lt_zero n hn

theorem mem_stores_clear (c : BitVec 32) (xOff yOff : BitVec 32) (r : BasicRenderer) (q : ℕ × ℕ) :
    q ∈ (forRange yOff.toNat (yOff + 16).toNat (fun y =>
      forRange (xOff - 8).toNat xOff.toNat fun x => storePixel t y x c) r).stores ↔
      q ∈ r.stores ∨ ClearWrites xOff yOff q :=
  clearLoops_iff (Q := fun r : BasicRenderer => q ∈ r.stores) fun _ _ _ =>
    List.mem_cons.trans or_comm

/-- The cell `clear_char` starts from. -/
def clearFrom (t : Target) (p : Point) : Point := if p.x = 0 then lineAbove t p else p

theorem mem_stores_clearChar (r : BasicRenderer) (q : ℕ × ℕ) :
    q ∈ (clearChar t r).stores ↔ q ∈ r.stores ∨
      ClearWrites (toUInt (clearFrom t r.cursorPosition).x)
        (toUInt (clearFrom t r.cursorPosition).y) q :=
  mem_stores_clear t.clearColor _ _ r q

/-! ## Cells in the framebuffer -/

/-- **A character at the cell is drawn inside the framebuffer**: every lit pixel of its glyph is
there, or a loop bound wraps and nothing is drawn. -/
def DrawnInside (t : Target) (chr : BitVec 8) (p : Point) : Prop :=
  (toUInt p.y).toNat + 16 < 2 ^ 32 → (toUInt p.x).toNat + 8 < 2 ^ 32 →
    ∀ i < 16, ∀ k < 8, Lit t chr i k →
      (toUInt p.y).toNat + i < t.targetFramebuffer.height.toNat ∧
        (toUInt p.x).toNat + k < t.targetFramebuffer.width.toNat

/-- **The cell cleared at the cursor is inside the framebuffer**, or no cell is cleared. -/
def ClearedInside (t : Target) (p : Point) : Prop :=
  (toUInt (clearFrom t p).y).toNat + 16 < 2 ^ 32 → 8 ≤ (toUInt (clearFrom t p).x).toNat →
    (toUInt (clearFrom t p).y).toNat + 16 ≤ t.targetFramebuffer.height.toNat ∧
      (toUInt (clearFrom t p).x).toNat ≤ t.targetFramebuffer.width.toNat

/-- **The call stores inside the framebuffer.** -/
def OpInside (t : Target) (p : Point) : RenderOp → Prop
  | .print str => ∀ n < strlen str, DrawnInside t (str.getD n 0) ((nextCell t)^[n] p)
  | .drawChar chr => DrawnInside t chr p
  | .clearChar => ClearedInside t p
  | .nextln => True

theorem drawnInside_iff {chr : BitVec 8} {p : Point} : DrawnInside t chr p ↔
    ∀ q, DrawWrites t chr (toUInt p.x) (toUInt p.y) q → Inside t q := by
  constructor
  · rintro h q ⟨⟨hy, hx⟩, i, hi, k, hk, hlit, rfl⟩
    exact h hy hx i hi k hk hlit
  · intro h hy hx i hi k hk hlit
    exact h _ ⟨⟨hy, hx⟩, i, hi, k, hk, hlit, rfl⟩

theorem clearedInside_iff {p : Point} : ClearedInside t p ↔
    ∀ q, ClearWrites (toUInt (clearFrom t p).x) (toUInt (clearFrom t p).y) q → Inside t q := by
  constructor
  · rintro h q ⟨⟨hy, hx⟩, i, hi, k, hk, rfl⟩
    obtain ⟨hheight, hwidth⟩ := h hy hx
    constructor <;> dsimp only <;> omega
  · intro h hy hx
    -- the last pixel of the cell is inside
    obtain ⟨hheight, hwidth⟩ := h _ ⟨⟨hy, hx⟩, 15, by omega, 7, by omega, rfl⟩
    dsimp only at hheight hwidth
    omega

/-! ## Runs -/

/-- All pixels stored so far are in the framebuffer. -/
def StoresInside (t : Target) (r : BasicRenderer) : Prop := ∀ q ∈ r.stores, Inside t q

/-- **One call.** -/
theorem storesInside_run_iff (op : RenderOp) (r : BasicRenderer) :
    StoresInside t (op.run t r) ↔ StoresInside t r ∧ OpInside t r.cursorPosition op := by
  unfold StoresInside
  cases op with
  | print str =>
      simp only [RenderOp.run, mem_stores_print, or_imp, forall_and, OpInside, drawnInside_iff]
      refine and_congr_right fun _ => ⟨fun h n hn q hq => h q ⟨n, hn, hq⟩, ?_⟩
      rintro h q ⟨n, hn, hq⟩
      exact h n hn q hq
  | drawChar chr =>
      simp only [RenderOp.run, mem_stores_drawChar, or_imp, forall_and, OpInside, drawnInside_iff]
  | clearChar =>
      simp only [RenderOp.run, mem_stores_clearChar, or_imp, forall_and, OpInside,
        clearedInside_iff]
  | nextln => exact (and_iff_left trivial).symm

/-- **The runs that store only pixels of the framebuffer** are those in which every call does. -/
theorem stores_inside_iff (t : Target) (pixels : ℕ → BitVec 32) (ops : List RenderOp) :
    StoresInside t (render t ops (init pixels)) ↔ ∀ pre op post, ops = pre ++ op :: post →
      OpInside t (render t pre (init pixels)).cursorPosition op := by
  refine (Runs.foldl_iff (P := StoresInside t)
    (C := fun (r : BasicRenderer) op => OpInside t r.cursorPosition op)
    (fun r op => storesInside_run_iff op r) ops _).trans (and_iff_right ?_)
  exact fun q hq => absurd hq List.not_mem_nil

/-- Two filled characters on a screen of one cell: the second is drawn below the screen. -/
theorem not_storesInside_two :
    ¬ StoresInside (screen 8 16)
      (render (screen 8 16) [.print [0x41, 0x41]] (init fun _ => 0)) := by
  intro h
  have hmem : (16, 0) ∈ (render (screen 8 16) [.print [0x41, 0x41]] (init fun _ => 0)).stores := by
    refine (mem_stores_print _ _ _).mpr (Or.inr ⟨1, by decide, ⟨by decide, by decide⟩, ?_⟩)
    exact ⟨0, by decide, 0, by decide, rfl, by decide⟩
  exact absurd (h _ hmem).1 (by decide)

end BasicRenderer

end EtaOs
