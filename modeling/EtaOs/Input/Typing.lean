import EtaOs.Input.Keyboard
import EtaOs.Renderer.Terminal

/-!
# Typing on the terminal

What is typed and printed, in any order, is a list of keys of the terminal: a scancode is one key
or none, and a shift key that is held changes the characters only.  So the framebuffer shows the
screen of the terminal; and when a line is typed with corrections on an erased part of it, every
pixel is that of the corrected text.

The terminal of `Library/Terminal.lean` knows nothing of scancodes, pixels or fonts.  What is shown
of it here covers any input; the second result needs a screen that is erased from the cursor on, as
a character that is taken back leaves an erased cell behind, whatever was there before.

* `held`, `Typed.keys`, `typedKeys`: the shift keys that are held, and the keys of the terminal.
* `type_eq_keys`: the handler does what these keys do.
* `typed_shown`: the framebuffer after any input.
* `typed_corrected`: the framebuffer after a line that was typed with corrections.
-/

namespace EtaOs

open BasicRenderer TextTerminal QWERTZKeyboard

/-! ## The keys of the terminal -/

/-- The shift keys that are held, left and right, after an input. -/
def held (shift : Bool × Bool) : Typed → Bool × Bool
  | .key scancode =>
      if scancode = LEFT_SHIFT then (true, shift.2)
      else if scancode = LEFT_SHIFT + 0x80 then (false, shift.2)
      else if scancode = RIGHT_SHIFT then (shift.1, true)
      else if scancode = RIGHT_SHIFT + 0x80 then (shift.1, false)
      else shift
  | .print _ => shift

/-- The keys of the terminal that an input stands for. -/
def Typed.keys (next : BitVec 8) (shift : Bool × Bool) : Typed → List (Key (BitVec 8))
  | .key scancode =>
      if scancode = ENTER then [.newline]
      else if scancode = BACKSPACE then [.back]
      else if keyChar next scancode (shift.1 || shift.2) ≠ 0 then
        [.put (keyChar next scancode (shift.1 || shift.2))]
      else []
  | .print str => (RenderOp.print str).keys

/-- The keys of a sequence of inputs. -/
def typedKeys (next : BitVec 8) : Bool × Bool → List Typed → List (Key (BitVec 8))
  | _, [] => []
  | shift, input :: inputs => input.keys next shift ++ typedKeys next (held shift input) inputs

/-- The shift flags. -/
def Keyboard.shift (s : Keyboard) : Bool × Bool := (s.leftShiftPressed, s.rightShiftPressed)

section Keys

variable (next : BitVec 8) (t : Target)

/-- **One input** does what its keys do. -/
theorem run_eq_typed (input : Typed) (s : Keyboard) :
    (input.run next t s).shift = held s.shift input ∧
      (input.run next t s).globalRenderer =
        (input.keys next s.shift).foldl (handle t) s.globalRenderer := by
  cases input with
  | print str => exact ⟨rfl, run_eq_keys t (.print str) s.globalRenderer⟩
  | key scancode =>
      by_cases hmem : scancode ∈ control
      · simp only [control, List.mem_cons, List.not_mem_nil, or_false] at hmem
        rcases hmem with rfl | rfl | rfl | rfl | rfl | rfl <;> exact ⟨rfl, rfl⟩
      · have hne := hmem
        simp only [control, List.mem_cons, List.not_mem_nil, or_false, not_or] at hne
        obtain ⟨h1, h2, h3, h4, h5, h6⟩ := hne
        have hheld : held s.shift (.key scancode) = s.shift := by
          rw [held, if_neg h1, if_neg h2, if_neg h3, if_neg h4]
        have hkeys : Typed.keys next s.shift (.key scancode) =
            if keyChar next scancode (s.shift.1 || s.shift.2) ≠ 0 then
              [.put (keyChar next scancode (s.shift.1 || s.shift.2))]
            else [] := by
          rw [Typed.keys, if_neg h5, if_neg h6]
        rw [hheld, hkeys]
        show (handleKeyboard next t scancode s).shift = _ ∧
          (handleKeyboard next t scancode s).globalRenderer = _
        rw [handleKeyboard_of_notMem hmem s]
        unfold Keyboard.shift
        split
        next => exact ⟨rfl, rfl⟩
        next => exact ⟨rfl, rfl⟩

/-- **A sequence of inputs** does what its keys do. -/
theorem type_eq_keys (inputs : List Typed) (s : Keyboard) :
    (type next t inputs s).globalRenderer =
      (typedKeys next s.shift inputs).foldl (handle t) s.globalRenderer := by
  induction inputs generalizing s with
  | nil => rfl
  | cons input inputs ih =>
      obtain ⟨hheld, hfirst⟩ := run_eq_typed next t input s
      have hrest := ih (input.run next t s)
      rw [hheld, hfirst] at hrest
      rw [typedKeys, List.foldl_append]
      exact hrest

variable {t}

/-- A scancode is one key at most. -/
theorem length_typedKeys_key (shift : Bool × Bool) (scancodes : List (BitVec 8)) :
    (typedKeys next shift (scancodes.map .key)).length ≤ scancodes.length := by
  induction scancodes generalizing shift with
  | nil => exact le_refl 0
  | cons scancode scancodes ih =>
      have hone : (Typed.keys next shift (.key scancode)).length ≤ 1 := by
        rw [Typed.keys]
        split
        next => exact le_refl 1
        next =>
          split
          next => exact le_refl 1
          next =>
            split
            next => exact le_refl 1
            next => exact Nat.zero_le 1
      have hrest := ih (held shift (.key scancode))
      rw [List.map_cons, typedKeys, List.length_append, List.length_cons]
      omega

end Keys

/-! ## The framebuffer -/

section Framebuffer

variable {next : BitVec 8} {t : Target} {s : Keyboard} {m : ℕ} {inputs : List Typed}

/-- What is written by a sequence of inputs, from cell `m` on. -/
def writtenBy (t : Target) (next : BitVec 8) (shift : Bool × Bool) (m : ℕ) (inputs : List Typed) :
    Screen (Written (BitVec 8)) :=
  (written _ (cols t)).type (typedKeys next shift inputs) (Screen.unwritten m)

/-- The cursor stays on the lines whose rows end below `2 ^ 32`. -/
def StaysLow (t : Target) (m : ℕ) (keys : List (Key (BitVec 8))) : Prop :=
  ∀ pre, pre <+: keys →
    Low t ((written (BitVec 8) (cols t)).type pre (Screen.unwritten m)).cursor

theorem StaysLow.low {keys : List (Key (BitVec 8))} (h : StaysLow t m keys)
    (r : BasicRenderer) {pre : List (Key (BitVec 8))} (hpre : pre <+: keys) :
    Low t ((device t).type pre (screenOf t r m)).cursor := by
  have hcursor := (Device.type_written (device t) pre (screenOf t r m)).1
  rw [hcursor]
  exact h pre hpre

/-- A number of keys stays on the low lines. -/
theorem staysLow_of_length (hcols : 0 < cols t) {keys : List (Key (BitVec 8))}
    (h : m / cols t + keys.length + 1 < 2 ^ 28) : StaysLow t m keys := by
  intro pre hpre
  have hline := Device.line_type (d := written (BitVec 8) (cols t)) hcols pre (Screen.unwritten m)
  have hlength := hpre.length_le
  refine Nat.lt_of_le_of_lt (Nat.succ_le_succ (hline.trans ?_)) h
  exact Nat.add_le_add_left hlength _

/-- The framebuffer shows the screen of the terminal on which the same was typed. -/
theorem shows_typed (hcols : 0 < cols t) (hdvd : 8 ∣ t.targetFramebuffer.width.toNat)
    (hpps : t.targetFramebuffer.width.toNat ≤ t.targetFramebuffer.pixelsPerScanline.toNat)
    (hs : s.globalRenderer.cursorPosition = gridCell t 0 m)
    (hlow : StaysLow t m (typedKeys next s.shift inputs)) :
    ShowsScreen t s.globalRenderer.pixels (type next t inputs s).globalRenderer
      ((device t).type (typedKeys next s.shift inputs) (screenOf t s.globalRenderer m)) := by
  rw [type_eq_keys]
  exact (shows_screenOf hs).run hcols hdvd hpps fun _ hpre => hlow.low _ hpre

/-- **What is written is shown.**  After any sequence of keys and printed strings, from a cursor
on the grid of a framebuffer whose width is a multiple of a cell's, the framebuffer shows what a
terminal says is written on which the same was typed, as long as that one stays above the line
where the loop bound wraps. -/
theorem typed_shown (hcols : 0 < cols t) (hdvd : 8 ∣ t.targetFramebuffer.width.toNat)
    (hpps : t.targetFramebuffer.width.toNat ≤ t.targetFramebuffer.pixelsPerScanline.toNat)
    (hs : s.globalRenderer.cursorPosition = gridCell t 0 m)
    (hlow : StaysLow t m (typedKeys next s.shift inputs)) :
    ShowsText t s.globalRenderer.pixels (type next t inputs s).globalRenderer
      (writtenBy t next s.shift m inputs) :=
  (shows_typed hcols hdvd hpps hs hlow).showsText

/-- **Typing with corrections.**  On a part of the framebuffer that has the clear color, with no
backspace but after a character, cursor and pixels are those of the corrected text, in whatever
order characters and backspaces were typed. -/
theorem typed_corrected (hcols : 0 < cols t) (hdvd : 8 ∣ t.targetFramebuffer.width.toNat)
    (hpps : t.targetFramebuffer.width.toNat ≤ t.targetFramebuffer.pixelsPerScanline.toNat)
    (hs : s.globalRenderer.cursorPosition = gridCell t 0 m)
    (hclear : ∀ n, m ≤ n → Low t n → ∀ (i : Fin 16) (k : Fin 8),
      s.globalRenderer.pixels (pixelAt t n i k) = t.clearColor)
    (hback : Key.back ∉ corrected (typedKeys next s.shift inputs))
    (hlow : StaysLow t m (typedKeys next s.shift inputs)) :
    (type next t inputs s).globalRenderer.cursorPosition =
        ((corrected (typedKeys next s.shift inputs)).foldl (handle t)
          s.globalRenderer).cursorPosition ∧
      (type next t inputs s).globalRenderer.pixels =
        ((corrected (typedKeys next s.shift inputs)).foldl (handle t) s.globalRenderer).pixels := by
  have hblank := blankAhead_screenOf hclear
  have htyped := shows_typed hcols hdvd hpps hs hlow
  rw [Device.type_corrected hcols hblank hback] at htyped
  refine htyped.unique ((shows_screenOf hs).run hcols hdvd hpps fun pre hpre => ?_)
  -- the corrected text comes through no other screens on the way
  obtain ⟨pre', hpre', rfl⟩ := exists_prefix_of_corrected hpre
  rw [← Device.type_corrected hcols hblank fun hmem => hback (hpre.subset hmem)]
  exact hlow.low _ hpre'

end Framebuffer

/-- Two characters with a backspace in between, and one printed in the next line. -/
theorem typed_shown_backspace : ShowsText (screen 640 480) (fun _ => 0)
    (type 0 (screen 640 480) [.key 0x1e, .key BACKSPACE, .key 0x30, .key ENTER, .print [0x63]]
      (Keyboard.init fun _ => 0)).globalRenderer
    (writtenBy (screen 640 480) 0 (false, false) 0
      [.key 0x1e, .key BACKSPACE, .key 0x30, .key ENTER, .print [0x63]]) :=
  typed_shown (t := screen 640 480) (s := Keyboard.init fun _ => 0) (m := 0) (by decide) (by decide)
    (by decide) rfl (staysLow_of_length (by decide) (by decide))

/-- A line that is typed with a correction. -/
theorem typed_corrected_backspace :
    (type 0 (screen 640 480) [.key 0x1e, .key BACKSPACE, .key 0x30]
      (Keyboard.init fun _ => 0)).globalRenderer.cursorPosition = ⟨8, 0⟩ ∧
    (type 0 (screen 640 480) [.key 0x1e, .key BACKSPACE, .key 0x30]
      (Keyboard.init fun _ => 0)).globalRenderer.pixels =
    (drawChar (screen 640 480) 0x62 (init fun _ => 0)).pixels :=
  typed_corrected (t := screen 640 480) (s := Keyboard.init fun _ => 0) (m := 0) (by decide)
    (by decide) (by decide) rfl (fun _ _ _ _ _ => rfl) (by decide)
    (staysLow_of_length (by decide) (by decide))

end EtaOs
