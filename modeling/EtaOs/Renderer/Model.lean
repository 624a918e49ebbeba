import EtaOs.Bootloader.Firmware
import EtaOs.Library.CountedLoop

/-!
# The text renderer

`BasicRenderer` draws 8 by 16 glyphs at a cursor.  The cursor is a pair of signed `long`, the
pixel loops work on `unsigned int`, and the two are compared with the width of the framebuffer
after different conversions.

The framebuffer is not an array here.  A pixel is known by its offset from the base, which may be
any 32-bit number, as the methods compute it without a look at the size; whether it is a pixel of
the framebuffer is a question that the model leaves open.

* `Target`: what a renderer draws on and with.
* `BasicRenderer`: the cursor and the pixels, with the pixels stored and the glyph bytes read.
* `drawCharAt`, `drawChar`, `print`, `clearChar`, `nextln`: the methods.
* `RenderOp`, `render`: a sequence of calls.
-/

namespace EtaOs

open Bootloader CountedLoop

/-- What a renderer draws on, and with what.  `glyphBuffer` gives the byte at an offset from
the start of the glyph buffer, also outside it. -/
structure Target where
  targetFramebuffer : Framebuffer
  psf1Header : Psf1Header
  glyphBuffer : ℤ → BitVec 8
  color : BitVec 32
  clearColor : BitVec 32

/-- `Point`: two `long`. -/
structure Point where
  x : ℤ
  y : ℤ
deriving DecidableEq

/-- The state of a renderer.  Pixels are numbered from the start of the framebuffer; `stores`
lists row and column of the pixels stored, `reads` the offsets of the glyph bytes read. -/
structure BasicRenderer where
  cursorPosition : Point
  pixels : ℕ → BitVec 32
  stores : List (ℕ × ℕ)
  reads : List ℤ

/-- The value of a `long` computation. -/
def toLong (v : ℤ) : ℤ := v.bmod (2 ^ 64)

/-- A `long` as an `unsigned int`. -/
def toUInt (v : ℤ) : BitVec 32 := BitVec.ofInt 32 v

namespace BasicRenderer

/-- The constructor. -/
def init (pixels : ℕ → BitVec 32) : BasicRenderer := ⟨⟨0, 0⟩, pixels, [], []⟩

def withCursor (r : BasicRenderer) (p : Point) : BasicRenderer := { r with cursorPosition := p }

/-- A byte is read through `font_ptr`. -/
def readFont (r : BasicRenderer) (offset : ℤ) : BasicRenderer :=
  { r with reads := offset :: r.reads }

/-- A pixel is stored through `pixel_ptr`. -/
def storePixel (t : Target) (y x : ℕ) (c : BitVec 32) (r : BasicRenderer) : BasicRenderer :=
  { r with
    pixels := Function.update r.pixels (x + y * t.targetFramebuffer.pixelsPerScanline.toNat) c
    stores := (y, x) :: r.stores }

/-- The bit of a glyph row that is tested for the pixel `k` columns to the right. -/
def glyphBit (font : BitVec 8) (k : ℕ) : Bool := (font &&& (0b10000000 >>> k)) > 0

/-- The offset `font_ptr` starts at. -/
def fontOffset (t : Target) (chr : BitVec 8) : ℤ := chr.toInt * t.psf1Header.charsize.toNat

section Methods

variable (t : Target)

/-- One pixel of `draw_char`. -/
def drawPixel (fontPtr : ℤ) (y x k : ℕ) (r : BasicRenderer) : BasicRenderer :=
  let r := r.readFont fontPtr
  if glyphBit (t.glyphBuffer fontPtr) k then storePixel t y x t.color r else r

/-- `draw_char(chr, xOff, yOff)`. -/
def drawCharAt (chr : BitVec 8) (xOff yOff : BitVec 32) (r : BasicRenderer) : BasicRenderer :=
  forRange yOff.toNat (yOff + 16).toNat
    (fun y => forRange xOff.toNat (xOff + 8).toNat fun x =>
      drawPixel t (fontOffset t chr + (y - yOff.toNat : ℕ)) y x (x - xOff.toNat))
    r

/-- The cursor after a character. -/
def nextCell (p : Point) : Point :=
  let x := toLong (p.x + 8)
  if toLong (x + 8) > t.targetFramebuffer.width.toNat then
    ⟨0, toLong (p.y + 16)⟩
  else
    ⟨x, p.y⟩

/-- `draw_char(chr)`. -/
def drawChar (chr : BitVec 8) (r : BasicRenderer) : BasicRenderer :=
  let p := r.cursorPosition
  (drawCharAt t chr (toUInt p.x) (toUInt p.y) r).withCursor (nextCell t p)

/-- `print`.  The string ends at its first NUL. -/
def print : List (BitVec 8) → BasicRenderer → BasicRenderer
  | [], r => r
  | chr :: str, r => if chr ≠ 0 then print str (drawChar t chr r) else r

/-- The cursor moved to the end of the line above, as `clear_char` does at a line start. -/
def lineAbove (p : Point) : Point :=
  let y := toLong (p.y - 16)
  ⟨t.targetFramebuffer.width.toNat, if y < 0 then 0 else y⟩

/-- `clear_char`. -/
def clearChar (r : BasicRenderer) : BasicRenderer :=
  let p := if r.cursorPosition.x = 0 then lineAbove t r.cursorPosition else r.cursorPosition
  let xOff := toUInt p.x
  let yOff := toUInt p.y
  let r := forRange yOff.toNat (yOff + 16).toNat
    (fun y => forRange (xOff - 8).toNat xOff.toNat fun x => storePixel t y x t.clearColor) r
  let p : Point := ⟨toLong (p.x - 8), p.y⟩
  r.withCursor (if p.x < 0 then lineAbove t p else p)

/-- `nextln`. -/
def nextln (r : BasicRenderer) : BasicRenderer :=
  r.withCursor ⟨0, toLong (r.cursorPosition.y + 16)⟩

end Methods

end BasicRenderer

/-! ## Calls -/

/-- A call of the renderer. -/
inductive RenderOp
  | print (str : List (BitVec 8))
  | drawChar (chr : BitVec 8)
  | clearChar
  | nextln

/-- One call. -/
def RenderOp.run (t : Target) (r : BasicRenderer) : RenderOp → BasicRenderer
  | .print str => r.print t str
  | .drawChar chr => r.drawChar t chr
  | .clearChar => r.clearChar t
  | .nextln => r.nextln

/-- A sequence of calls. -/
def render (t : Target) (ops : List RenderOp) (r : BasicRenderer) : BasicRenderer :=
  ops.foldl (RenderOp.run t) r

/-- A renderer on a framebuffer of this size, with a font of filled cells. -/
def screen (width height : BitVec 32) : Target where
  targetFramebuffer := ⟨0, 0, width, height, width⟩
  psf1Header := ⟨0x36, 0x04, 0, 16⟩
  glyphBuffer _ := 0xff
  color := 0xffffffff
  clearColor := 0

end EtaOs
