import EtaOs.Bootloader.EfiMain
import EtaOs.Renderer.Stores

/-!
# The glyph bytes the renderer reads

`draw_char` reads sixteen bytes at the character times the font's `charsize`, with the
character a signed `char`.  A buffer of 256 or 512 glyphs has these bytes for every character
up to 127 if glyphs have any size at all, and for no other.

Reads do not show on the screen, so they are recorded.  The offset of a read is a signed number, as
a character above 127 is negative and leads in front of the buffer, and it is compared with the
size of the buffer that the boot loader has allocated.

* `ends_loadPsf1Font_accepts`: the fonts the boot loader accepts.
* `mem_reads_drawCharAt`, `mem_reads_drawChar`: the offsets read.
* `glyph_inside_iff`: the characters whose glyph is in the buffer.
-/

namespace EtaOs

open Bootloader CountedLoop Programs

/-- **The fonts `load_psf1_font` accepts** have the magic bytes, and a buffer of the size of
their glyphs was asked for. -/
theorem ends_loadPsf1Font_accepts (fw : Firmware) (path : String) (s : Uefi) :
    Ends (loadPsf1Font fw none path) s (fun p t => ∀ font, p = some font →
      font.psf1Header.magic0 = 0x36 ∧ font.psf1Header.magic1 = 0x04 ∧
        ∃ r, Event.call (.allocatePool font.psf1Header.glyphBufferSize) r ∈ t.trace)
      fun _ _ => True := by
  unfold loadPsf1Font
  refine Ends.bind (Q := fun _ _ => True) (E := fun _ _ => True) ?_ fun p t _ => ?_
  · exact Ends.of_returns (fun _ _ => trivial) fun _ _ => trivial
  cases p with
  | none => exact fun font h => absurd h.symm (Option.some_ne_none font)
  | some file =>
      rw [ends_bind, ends_allocatePool, ends_bind, ends_read, ends_bind]
      refine ends_deref (fun b _ => ?_) fun _ => trivial
      dsimp only
      split
      · exact fun font h => absurd h.symm (Option.some_ne_none font)
      next hmagic =>
        rw [ends_bind, ends_setPosition, ends_bind, ends_allocatePool, ends_bind, ends_read,
          ends_bind, ends_allocatePool, ends_bind]
        refine ends_deref (fun _ _ => ?_) fun _ => trivial
        intro font hfont
        obtain rfl := Option.some_inj.mp hfont
        rw [not_or, not_not, not_not] at hmagic
        exact ⟨hmagic.1, hmagic.2, _,
          List.mem_cons_of_mem _ (List.mem_cons_of_mem _ List.mem_cons_self)⟩

namespace BasicRenderer

variable {t : Target}

/-- The offset is in the glyph buffer. -/
def InGlyphs (t : Target) (offset : ℤ) : Prop :=
  0 ≤ offset ∧ offset < t.psf1Header.glyphBufferSize.toNat

/-! ## Reads of a method -/

theorem mem_reads_drawPixel (fontPtr : ℤ) (y x k : ℕ) (r : BasicRenderer) (offset : ℤ) :
    offset ∈ (drawPixel t fontPtr y x k r).reads ↔ offset ∈ r.reads ∨ offset = fontPtr := by
  unfold drawPixel
  dsimp only
  split <;> exact List.mem_cons.trans or_comm

/-- The offsets `draw_char` reads: the sixteen rows of the glyph, unless a loop bound wraps. -/
def DrawReads (t : Target) (chr : BitVec 8) (xOff yOff : BitVec 32) (offset : ℤ) : Prop :=
  (yOff.toNat + 16 < 2 ^ 32 ∧ xOff.toNat + 8 < 2 ^ 32) ∧
    ∃ i < 16, offset = fontOffset t chr + (i : ℕ)

theorem mem_reads_drawCharAt (chr : BitVec 8) (xOff yOff : BitVec 32) (r : BasicRenderer)
    (offset : ℤ) : offset ∈ (drawCharAt t chr xOff yOff r).reads ↔
      offset ∈ r.reads ∨ DrawReads t chr xOff yOff offset := by
  refine (drawCharAt_iff (Q := fun r : BasicRenderer => offset ∈ r.reads)
    (H := fun i _ => offset = fontOffset t chr + (i : ℕ)) fun _ _ r =>
      mem_reads_drawPixel _ _ _ _ r offset).trans
    (or_congr_right (and_congr_right fun _ => exists_congr fun i => and_congr_right fun _ => ?_))
  -- the eight pixels of a row read the same byte
  exact ⟨fun ⟨_, _, h⟩ => h, fun h => ⟨0, by omega, h⟩⟩

theorem mem_reads_drawChar (chr : BitVec 8) (r : BasicRenderer) (offset : ℤ) :
    offset ∈ (drawChar t chr r).reads ↔ offset ∈ r.reads ∨
      DrawReads t chr (toUInt r.cursorPosition.x) (toUInt r.cursorPosition.y) offset :=
  mem_reads_drawCharAt chr _ _ r offset

/-! ## Glyphs in the buffer -/

/-- **The characters whose glyph is in the buffer**: those up to 127, if glyphs have a size. -/
theorem glyph_inside_iff (chr : BitVec 8) :
    (∀ i < 16, InGlyphs t (fontOffset t chr + (i : ℕ))) ↔
      t.psf1Header.charsize ≠ 0 ∧ chr.toNat < 128 := by
  have hchar := t.psf1Header.charsize.isLt
  have hsize := toNat_glyphBufferSize t.psf1Header
  have hchr := chr.isLt
  have hzero : t.psf1Header.charsize ≠ 0 ↔ 0 < t.psf1Header.charsize.toNat := by
    constructor <;> intro h <;> bv_omega
  rw [hzero]
  unfold InGlyphs fontOffset
  rw [hsize, BitVec.toInt_eq_toNat_cond]
  constructor
  · intro h
    have h0 := h 0 (by omega)
    split at h0
    next hlt =>
      refine ⟨?_, by omega⟩
      by_contra hc
      have hc' : t.psf1Header.charsize.toNat = 0 := by omega
      rw [hc'] at h0
      split at h0 <;> omega
    next hge =>
      -- the offset of a negative character is negative
      have hneg : ((chr.toNat : ℤ) - (2 ^ 8 : ℕ)) * t.psf1Header.charsize.toNat ≤
          -1 * t.psf1Header.charsize.toNat :=
        Int.mul_le_mul_of_nonneg_right (by omega) (by omega)
      have hc : t.psf1Header.charsize.toNat = 0 := by omega
      rw [hc, Nat.zero_mul] at h0
      exact absurd h0.2 (by omega)
  · rintro ⟨hpos, hlt⟩ i hi
    have hmul : (chr.toNat : ℤ) * t.psf1Header.charsize.toNat ≤
        127 * t.psf1Header.charsize.toNat :=
      Int.mul_le_mul_of_nonneg_right (by omega) (by omega)
    rw [if_pos (by omega)]
    constructor
    · positivity
    · split <;> push_cast <;> omega

/-- **A character at the cell reads inside the buffer**, or a loop bound wraps and nothing is
read. -/
def ReadsInside (t : Target) (chr : BitVec 8) (p : Point) : Prop :=
  (toUInt p.y).toNat + 16 < 2 ^ 32 → (toUInt p.x).toNat + 8 < 2 ^ 32 →
    t.psf1Header.charsize ≠ 0 ∧ chr.toNat < 128

theorem readsInside_iff {chr : BitVec 8} {p : Point} : ReadsInside t chr p ↔
    ∀ offset, DrawReads t chr (toUInt p.x) (toUInt p.y) offset → InGlyphs t offset := by
  unfold ReadsInside
  rw [← glyph_inside_iff]
  constructor
  · rintro h offset ⟨⟨hy, hx⟩, i, hi, rfl⟩
    exact h hy hx i hi
  · intro h hy hx i hi
    exact h _ ⟨⟨hy, hx⟩, i, hi, rfl⟩

/-- All glyph bytes read so far are in the buffer. -/
def AllReadsInside (t : Target) (r : BasicRenderer) : Prop := ∀ offset ∈ r.reads, InGlyphs t offset

theorem allReadsInside_drawChar_iff (chr : BitVec 8) (r : BasicRenderer) :
    AllReadsInside t (drawChar t chr r) ↔
      AllReadsInside t r ∧ ReadsInside t chr r.cursorPosition := by
  unfold AllReadsInside
  simp only [mem_reads_drawChar, or_imp, forall_and, readsInside_iff]

/-- **Printing a string** reads inside the buffer when each of its characters does. -/
theorem allReadsInside_print_iff (str : List (BitVec 8)) (r : BasicRenderer) :
    AllReadsInside t (print t str r) ↔ AllReadsInside t r ∧
      ∀ n < strlen str, ReadsInside t (str.getD n 0) ((nextCell t)^[n] r.cursorPosition) := by
  induction str generalizing r with
  | nil => exact (and_iff_left fun n hn => absurd hn (Nat.not_lt_zero n)).symm
  | cons chr str ih =>
      rw [print]
      split
      next h =>
        rw [ih, allReadsInside_drawChar_iff, strlen_cons_of_ne h, Nat.forall_lt_succ_left,
          and_assoc]
        rfl
      next h =>
        rw [strlen_cons_of_eq (not_not.mp h)]
        exact (and_iff_left fun n hn => absurd hn (Nat.not_lt_zero n)).symm

/-- A backspace reads no glyph. -/
theorem reads_clearChar (r : BasicRenderer) : (clearChar t r).reads = r.reads := by
  unfold clearChar
  exact forRange_eq (f := fun r' : BasicRenderer => r'.reads) fun y r' _ _ =>
    forRange_eq (f := fun r' : BasicRenderer => r'.reads) fun x r' _ _ => rfl

end BasicRenderer

end EtaOs
