import EtaOs.KernelHeap.Moves
import EtaOs.Renderer.Glyphs

/-!
# The renderer behind the page tables

The renderer stores its pixels through pointers, four bytes each, and reads the glyphs through
pointers, a byte for every pixel of a cell.  The methods of `BasicRenderer` draw on pixels that are
nowhere in particular; here are the same loops with the pointers.  A store may end in a page fault,
and a pixel that is stored behind the framebuffer is a store to somebody else's memory.

What a method does to memory can be told from what it does to the pixels, as long as the two agree
on single pixels.  So the methods are compared once and for all, for any relation of memory and
pixels: when a pixel of the framebuffer is stored as the relation has it, and the bytes of the
glyphs are where the renderer reads them, a call that stays inside the framebuffer and inside the
font follows the method.

* `pixelPtr`: where a pixel is stored.
* `HeapM.drawChar`, `HeapM.clearChar`, `HeapM.print`: the stores and loads of the methods.
* `RendersTo`: memory is related to the pixels of a renderer.
* `RendersTo.drawChar`, `RendersTo.clearChar`, `RendersTo.print`: the methods.
-/

namespace EtaOs

open BasicRenderer ByteMemory CountedLoop Fallible

variable {σ : Type} {t : Target} {glyphBuffer : Addr}

/-- `pixel_ptr + x + (y * target_framebuffer->pixels_per_scanline)`. -/
def pixelPtr (t : Target) (y x : ℕ) : Addr :=
  t.targetFramebuffer.baseAdress +
    BitVec.ofNat 64 (4 * (x + y * t.targetFramebuffer.pixelsPerScanline.toNat))

/-! ## The stores and loads of the methods -/

namespace HeapM

/-- A store of four bytes through a pointer, the low byte first. -/
def store32 (a : Addr) (v : BitVec 32) : HeapM σ Unit :=
  forRangeM 0 4 fun j => store8 (a + BitVec.ofNat 64 j) (v.extractLsb' (8 * j) 8)

/-- A pixel is stored through `pixel_ptr`. -/
def storePixel (t : Target) (y x : ℕ) (c : BitVec 32) : HeapM σ Unit :=
  store32 (pixelPtr t y x) c

section Methods

variable (t : Target) (glyphBuffer : Addr)

/-- One pixel of `draw_char`. -/
def drawPixel (fontPtr : ℤ) (y x k : ℕ) : HeapM σ Unit := do
  let font ← load8 (glyphBuffer + BitVec.ofInt 64 fontPtr)
  if glyphBit font k then storePixel t y x t.color else pure ()

/-- `draw_char(chr, xOff, yOff)`. -/
def drawCharAt (chr : BitVec 8) (xOff yOff : BitVec 32) : HeapM σ Unit :=
  forRangeM yOff.toNat (yOff + 16).toNat fun y =>
    forRangeM xOff.toNat (xOff + 8).toNat fun x =>
      drawPixel t glyphBuffer (fontOffset t chr + (y - yOff.toNat : ℕ)) y x (x - xOff.toNat)

/-- The stores and loads of `draw_char(chr)` with this cursor. -/
def drawChar (chr : BitVec 8) (p : Point) : HeapM σ Unit :=
  drawCharAt t glyphBuffer chr (toUInt p.x) (toUInt p.y)

/-- The stores of `clear_char` with this cursor. -/
def clearChar (p : Point) : HeapM σ Unit :=
  let p := if p.x = 0 then lineAbove t p else p
  let xOff := toUInt p.x
  let yOff := toUInt p.y
  forRangeM yOff.toNat (yOff + 16).toNat fun y =>
    forRangeM (xOff - 8).toNat xOff.toNat fun x => storePixel t y x t.clearColor

/-- `print` with this cursor, which returns the cursor behind the string. -/
def print : List (BitVec 8) → Point → HeapM σ Point
  | [], p => pure p
  | chr :: str, p =>
      if chr ≠ 0 then do
        drawChar t glyphBuffer chr p
        print str (nextCell t p)
      else pure p

end Methods

/-! They leave the records of the machine. -/

section Moves

variable {R : KernelHeap σ → KernelHeap σ → Prop} [hR : QuietRel R]

include hR

theorem moves_storePixel {y x : ℕ} {c : BitVec 32} :
    Moves R (storePixel t y x c : HeapM σ Unit) :=
  Moves.forRangeM fun _ => moves_store8

theorem moves_drawChar {chr : BitVec 8} {p : Point} :
    Moves R (drawChar t glyphBuffer chr p : HeapM σ Unit) :=
  Moves.forRangeM fun _ => Moves.forRangeM fun _ =>
    moves_load8.bind fun _ => moves_storePixel.ite (moves_pure _)

theorem moves_clearChar {p : Point} : Moves R (clearChar t p : HeapM σ Unit) :=
  Moves.forRangeM fun _ => Moves.forRangeM fun _ => moves_storePixel

end Moves

end HeapM

/-! ## What they do to memory -/

/-- **Memory is related to the pixels of a renderer**: a store to a pixel of the framebuffer is
seen in both, and the glyphs are where the renderer reads them. -/
structure RendersTo (t : Target) (glyphBuffer : Addr) (I : KernelHeap σ → BasicRenderer → Prop) :
    Prop where
  pixels : ∀ {k r r'}, I k r → r'.pixels = r.pixels → I k r'
  store : ∀ {y x} c, Inside t (y, x) →
    Follows I (HeapM.storePixel t y x c) (BasicRenderer.storePixel t y x c)
  glyph : ∀ {k r offset}, I k r → InGlyphs t offset →
    k.machine.load8 (glyphBuffer + BitVec.ofInt 64 offset) = some (t.glyphBuffer offset)

namespace RendersTo

variable {I : KernelHeap σ → BasicRenderer → Prop} {k : KernelHeap σ} {r : BasicRenderer}

/-- One pixel of a glyph. -/
theorem drawPixel (h : RendersTo t glyphBuffer I) {fontPtr : ℤ} {y x j : ℕ}
    (hglyph : InGlyphs t fontPtr)
    (hin : glyphBit (t.glyphBuffer fontPtr) j = true → Inside t (y, x)) :
    Follows I (HeapM.drawPixel t glyphBuffer fontPtr y x j)
      (BasicRenderer.drawPixel t fontPtr y x j) := by
  intro k r hI
  have hload : HeapM.load8 (glyphBuffer + BitVec.ofInt 64 fontPtr) k =
      some (t.glyphBuffer fontPtr, k) := by
    rw [HeapM.load8, h.glyph hI hglyph, Option.map_some]
  have hread : I k (r.readFont fontPtr) := h.pixels hI rfl
  have hpixel := Follows.ite (I := I) (c := glyphBit (t.glyphBuffer fontPtr) j = true)
    (fun hlit => h.store t.color (hin hlit)) (fun _ => follows_pure) k (r.readFont fontPtr) hread
  exact (show Returns (HeapM.load8 (glyphBuffer + BitVec.ofInt 64 fontPtr)) k
    fun font k' => font = t.glyphBuffer fontPtr ∧ k' = k from ⟨_, k, hload, rfl, rfl⟩).bind
      fun font k' hfont => by
        obtain ⟨rfl, rfl⟩ := hfont
        exact hpixel

/-- **`draw_char`.** -/
theorem drawChar (h : RendersTo t glyphBuffer I) {chr : BitVec 8}
    (hdrawn : DrawnInside t chr r.cursorPosition) (hreads : ReadsInside t chr r.cursorPosition)
    (hI : I k r) : Returns (HeapM.drawChar t glyphBuffer chr r.cursorPosition) k
      fun _ k' => I k' (r.drawChar t chr) := by
  have hloops : Follows I (HeapM.drawChar t glyphBuffer chr r.cursorPosition)
      (BasicRenderer.drawCharAt t chr (toUInt r.cursorPosition.x) (toUInt r.cursorPosition.y)) := by
    refine Follows.forRange fun y hy hy' => Follows.forRange fun x hx hx' => ?_
    -- the loops are entered only when their bounds do not wrap
    have hyOff : (toUInt r.cursorPosition.y).toNat + 16 < 2 ^ 32 := by bv_omega
    have hxOff : (toUInt r.cursorPosition.x).toNat + 8 < 2 ^ 32 := by bv_omega
    have hi : y - (toUInt r.cursorPosition.y).toNat < 16 := by bv_omega
    have hk : x - (toUInt r.cursorPosition.x).toNat < 8 := by bv_omega
    refine h.drawPixel (readsInside_iff.mp hreads _ ⟨⟨hyOff, hxOff⟩, _, hi, rfl⟩) fun hlit => ?_
    have hinside := drawnInside_iff.mp hdrawn _ ⟨⟨hyOff, hxOff⟩, _, hi, _, hk, hlit, rfl⟩
    rwa [Nat.add_sub_cancel' hy, Nat.add_sub_cancel' hx] at hinside
  exact (hloops k r hI).mono fun _ k' hk' => h.pixels hk' rfl

/-- **`clear_char`.** -/
theorem clearChar (h : RendersTo t glyphBuffer I) (hcleared : ClearedInside t r.cursorPosition)
    (hI : I k r) : Returns (HeapM.clearChar t r.cursorPosition) k
      fun _ k' => I k' (r.clearChar t) := by
  have hloops : Follows I (HeapM.clearChar t r.cursorPosition) fun r' =>
      forRange (toUInt (clearFrom t r.cursorPosition).y).toNat
        (toUInt (clearFrom t r.cursorPosition).y + 16).toNat
        (fun y => forRange (toUInt (clearFrom t r.cursorPosition).x - 8).toNat
          (toUInt (clearFrom t r.cursorPosition).x).toNat
          fun x => BasicRenderer.storePixel t y x t.clearColor) r' := by
    refine Follows.forRange fun y hy hy' => Follows.forRange fun x hx hx' => h.store _ ?_
    have hy : (toUInt (clearFrom t r.cursorPosition).y).toNat ≤ y := hy
    have hy' : y < (toUInt (clearFrom t r.cursorPosition).y + 16).toNat := hy'
    have hx : (toUInt (clearFrom t r.cursorPosition).x - 8).toNat ≤ x := hx
    have hx' : x < (toUInt (clearFrom t r.cursorPosition).x).toNat := hx'
    obtain ⟨hheight, hwidth⟩ := hcleared (by bv_omega) (by bv_omega)
    constructor <;> dsimp only <;> bv_omega
  exact (hloops k r hI).mono fun _ k' hk' => h.pixels hk' rfl

/-- **`print`**, by induction on the string. -/
theorem print (h : RendersTo t glyphBuffer I) {str : List (BitVec 8)}
    (hdrawn : OpInside t r.cursorPosition (.print str))
    (hreads : ∀ chr ∈ str, ∀ p, ReadsInside t chr p) (hI : I k r) :
    Returns (HeapM.print t glyphBuffer str r.cursorPosition) k fun p k' =>
      p = (r.print t str).cursorPosition ∧ I k' (r.print t str) := by
  induction str generalizing k r with
  | nil => exact returns_pure ⟨rfl, hI⟩
  | cons chr str ih =>
      unfold HeapM.print BasicRenderer.print
      by_cases hchr : chr ≠ 0
      · rw [if_pos hchr, if_pos hchr]
        simp only [OpInside] at hdrawn
        rw [strlen_cons_of_ne hchr, Nat.forall_lt_succ_left] at hdrawn
        obtain ⟨hfirst, hrest⟩ := hdrawn
        refine (h.drawChar hfirst (hreads chr List.mem_cons_self _) hI).bind fun _ k' hk' => ?_
        exact ih (r := r.drawChar t chr) hrest
          (fun c hc => hreads c (List.mem_cons_of_mem chr hc)) hk'
      · rw [if_neg hchr, if_neg hchr]
        exact returns_pure ⟨rfl, hI⟩

end RendersTo

end EtaOs
