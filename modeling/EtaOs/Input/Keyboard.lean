import EtaOs.Renderer.Glyphs

/-!
# The keyboard

`handle_keyboard` draws the character of a scancode.  `translate` subtracts 32 from the table
entry while a shift key is held, also from the 0 of an unmapped key, which then is drawn as the
character 224; and it lets the scancode after the last entry through.

The handler is given any byte, also those that no keyboard sends, as it does not look.  The reads
of a glyph go by the character as a `signed char`, and so a character above 127 reads in front of
the glyph buffer; which scancodes lead to such a character is settled by going through the table
once.

* `translate`, `handleKeyboard`: the handler.
* `keyChar`: the character a scancode draws; `le_keyChar_iff`, the scancodes that draw one
  above 127.
* `typed_reads_inside_iff`: the inputs on which every glyph byte read is in the glyph buffer.
-/

namespace EtaOs

open BasicRenderer

/-! ## The handler -/

namespace QWERTZKeyboard

def LEFT_SHIFT : BitVec 8 := 0x2a

def RIGHT_SHIFT : BitVec 8 := 0x36

def ENTER : BitVec 8 := 0x1c

def BACKSPACE : BitVec 8 := 0x0e

def SPACE : BitVec 8 := 0x39

/-- `ascii_table`. -/
def asciiTable : List (BitVec 8) :=
  [0, 0, 49, 50, 51, 52, 53, 54, 55, 56,
    57, 48, 45, 61, 0, 0, 113, 119, 101,
    114, 116, 122, 117, 105, 111, 112, 91, 93,
    0, 0, 97, 115, 100, 102, 103, 104, 106, 107,
    108, 59, 39, 96, 0, 92, 121, 120, 99,
    118, 98, 110, 109, 44, 46, 47, 0, 42, 0, 32]

/-- `translate`.  The byte after the table is `next`; scancode 58 reads it. -/
def translate (next : BitVec 8) (scancode : BitVec 8) (uppercase : Bool) : BitVec 8 :=
  if scancode > 58 then 0
  else if uppercase then asciiTable.getD scancode.toNat next - 32
  else asciiTable.getD scancode.toNat next

end QWERTZKeyboard

open QWERTZKeyboard

/-- The shift flags of the handler, and `global_renderer`. -/
structure Keyboard where
  leftShiftPressed : Bool
  rightShiftPressed : Bool
  globalRenderer : BasicRenderer

/-- `handle_keyboard`. -/
def handleKeyboard (next : BitVec 8) (t : Target) (scancode : BitVec 8) (s : Keyboard) :
    Keyboard :=
  if scancode = LEFT_SHIFT then { s with leftShiftPressed := true }
  else if scancode = LEFT_SHIFT + 0x80 then { s with leftShiftPressed := false }
  else if scancode = RIGHT_SHIFT then { s with rightShiftPressed := true }
  else if scancode = RIGHT_SHIFT + 0x80 then { s with rightShiftPressed := false }
  else if scancode = ENTER then { s with globalRenderer := s.globalRenderer.nextln }
  else if scancode = SPACE then { s with globalRenderer := s.globalRenderer.drawChar t 32 }
  else if scancode = BACKSPACE then { s with globalRenderer := s.globalRenderer.clearChar t }
  else
    let ascii := QWERTZKeyboard.translate next scancode (s.leftShiftPressed || s.rightShiftPressed)
    if ascii ≠ 0 then { s with globalRenderer := s.globalRenderer.drawChar t ascii } else s

/-- What reaches the renderer: a key, or a string printed by the kernel. -/
inductive Typed
  | key (scancode : BitVec 8)
  | print (str : List (BitVec 8))

/-- One input. -/
def Typed.run (next : BitVec 8) (t : Target) (s : Keyboard) : Typed → Keyboard
  | .key scancode => handleKeyboard next t scancode s
  | .print str => { s with globalRenderer := s.globalRenderer.print t str }

/-- The keyboard before any key is pressed. -/
def Keyboard.init (pixels : ℕ → BitVec 32) : Keyboard :=
  ⟨false, false, BasicRenderer.init pixels⟩

/-- A sequence of inputs. -/
def type (next : BitVec 8) (t : Target) (inputs : List Typed) (s : Keyboard) : Keyboard :=
  inputs.foldl (Typed.run next t) s

/-! ## The character of a key -/

/-- The scancodes that are handled without drawing. -/
def control : List (BitVec 8) :=
  [LEFT_SHIFT, LEFT_SHIFT + 0x80, RIGHT_SHIFT, RIGHT_SHIFT + 0x80, ENTER, BACKSPACE]

/-- The character a scancode draws, 0 if it draws none. -/
def keyChar (next : BitVec 8) (scancode : BitVec 8) (shift : Bool) : BitVec 8 :=
  if scancode ∈ control then 0
  else if scancode = SPACE then 32
  else QWERTZKeyboard.translate next scancode shift

/-- The keys without a character: Escape, Tab, Control, Alt, and scancode 0. -/
def unmapped : List (BitVec 8) := [0x00, 0x01, 0x0f, 0x1d, 0x38]

/-- **The keys that draw a character above 127**: an unmapped one while a shift key is held, and
scancode 58 when the byte after the table says so. -/
theorem le_keyChar_iff (next scancode : BitVec 8) (shift : Bool) :
    128 ≤ (keyChar next scancode shift).toNat ↔
      (shift = true ∧ scancode ∈ unmapped) ∨
        (scancode = 58 ∧ 128 ≤ (if shift then next - 32 else next).toNat) := by
  by_cases h58 : scancode = 58
  · subst h58
    cases shift <;> simp [keyChar, QWERTZKeyboard.translate, control, unmapped, asciiTable,
      LEFT_SHIFT, RIGHT_SHIFT, ENTER, BACKSPACE, SPACE]
  · have hnext : keyChar next scancode shift = keyChar 0 scancode shift := by
      unfold keyChar QWERTZKeyboard.translate
      split
      · rfl
      · split
        · rfl
        · split
          · rfl
          next hle =>
            have hlt : scancode.toNat < asciiTable.length := by
              have hlen : asciiTable.length = 58 := rfl
              have hle' : scancode.toNat ≤ 58 := Nat.le_of_not_lt fun h => hle (BitVec.lt_def.mpr h)
              have hne : scancode.toNat ≠ 58 := fun h => h58 (BitVec.eq_of_toNat_eq h)
              omega
            simp only [List.getD_eq_getElem?_getD, List.getElem?_eq_getElem hlt, Option.getD_some]
    have hall : ∀ (scancode : BitVec 8) (shift : Bool), scancode ≠ 58 →
        (128 ≤ (keyChar 0 scancode shift).toNat ↔ shift = true ∧ scancode ∈ unmapped) := by
      decide +kernel
    rw [hnext, hall scancode shift h58]
    exact (or_iff_left fun h => h58 h.1).symm

/-! ## Reads -/

/-- **The input reads only glyphs of the font**: each character it draws is in no cell, or is up
to 127 in a font whose glyphs have a size. -/
def InputInside (next : BitVec 8) (t : Target) (s : Keyboard) : Typed → Prop
  | .key scancode =>
      keyChar next scancode (s.leftShiftPressed || s.rightShiftPressed) ≠ 0 →
        ReadsInside t (keyChar next scancode (s.leftShiftPressed || s.rightShiftPressed))
          s.globalRenderer.cursorPosition
  | .print str => ∀ n < strlen str, ReadsInside t (str.getD n 0)
      ((nextCell t)^[n] s.globalRenderer.cursorPosition)

section Reads

variable {next : BitVec 8} {t : Target}

/-- The control keys read no glyph. -/
theorem reads_handleKeyboard_of_mem {scancode : BitVec 8} (h : scancode ∈ control) (s : Keyboard) :
    (handleKeyboard next t scancode s).globalRenderer.reads = s.globalRenderer.reads := by
  simp only [control, List.mem_cons, List.not_mem_nil, or_false] at h
  rcases h with rfl | rfl | rfl | rfl | rfl | rfl
  · rfl
  · rfl
  · rfl
  · rfl
  · rfl
  · exact reads_clearChar s.globalRenderer

/-- Every other key draws its character. -/
theorem handleKeyboard_of_notMem {scancode : BitVec 8} (h : scancode ∉ control) (s : Keyboard) :
    handleKeyboard next t scancode s =
      if keyChar next scancode (s.leftShiftPressed || s.rightShiftPressed) ≠ 0 then
        { s with
          globalRenderer := s.globalRenderer.drawChar t
            (keyChar next scancode (s.leftShiftPressed || s.rightShiftPressed)) }
      else s := by
  have hne := h
  simp only [control, List.mem_cons, List.not_mem_nil, or_false, not_or] at hne
  obtain ⟨h1, h2, h3, h4, h5, h6⟩ := hne
  unfold handleKeyboard keyChar
  rw [if_neg h1, if_neg h2, if_neg h3, if_neg h4, if_neg h5, if_neg h6, if_neg h]
  by_cases hspace : scancode = SPACE
  · rw [if_pos hspace, if_pos hspace, if_pos (by decide)]
  · rw [if_neg hspace, if_neg hspace]

/-- A key reads the glyph of its character. -/
theorem allReadsInside_key_iff (scancode : BitVec 8) (s : Keyboard) :
    AllReadsInside t (handleKeyboard next t scancode s).globalRenderer ↔
      AllReadsInside t s.globalRenderer ∧ InputInside next t s (.key scancode) := by
  by_cases hmem : scancode ∈ control
  · have hchar : InputInside next t s (.key scancode) := fun hc => absurd (if_pos hmem) hc
    unfold AllReadsInside
    rw [reads_handleKeyboard_of_mem hmem]
    exact (and_iff_left hchar).symm
  · rw [handleKeyboard_of_notMem hmem]
    split
    next h =>
      exact (allReadsInside_drawChar_iff _ s.globalRenderer).trans
        (and_congr_right fun _ => (imp_iff_right h).symm)
    next h => exact (and_iff_left fun hc => absurd hc h).symm

/-- **The inputs on which every glyph byte read is in the glyph buffer.** -/
theorem typed_reads_inside_iff (next : BitVec 8) (t : Target) (pixels : ℕ → BitVec 32)
    (inputs : List Typed) :
    AllReadsInside t (type next t inputs (Keyboard.init pixels)).globalRenderer ↔
      ∀ pre input post, inputs = pre ++ input :: post →
        InputInside next t (type next t pre (Keyboard.init pixels)) input := by
  refine (Runs.foldl_iff (P := fun s : Keyboard => AllReadsInside t s.globalRenderer)
    (C := InputInside next t) (fun s input => ?_) inputs _).trans (and_iff_right ?_)
  · cases input with
    | key scancode => exact allReadsInside_key_iff scancode s
    | print str => exact allReadsInside_print_iff str s.globalRenderer
  · exact fun offset h => absurd h List.not_mem_nil

end Reads

/-- Tab with a shift key held draws the character 224, whose glyph is before the buffer. -/
theorem not_allReadsInside_shift_tab :
    ¬ AllReadsInside (screen 640 480) (type 0 (screen 640 480) [.key 0x2a, .key 0x0f]
      (Keyboard.init fun _ => 0)).globalRenderer := by
  intro h
  have hmem : -512 ∈ (type 0 (screen 640 480) [.key 0x2a, .key 0x0f]
      (Keyboard.init fun _ => 0)).globalRenderer.reads := by
    refine (mem_reads_drawChar 224 _ _).mpr (Or.inr ⟨by decide, 0, by decide, by decide⟩)
  exact absurd (h _ hmem).1 (by decide)

end EtaOs
