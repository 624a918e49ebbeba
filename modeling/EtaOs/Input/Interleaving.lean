import EtaOs.Input.Keyboard
import Mathlib.Data.Prod.Lex

/-!
# Typing while the kernel prints

`print` and the handler of the keyboard share one cursor, and interrupts stay enabled.  Between
its statements `print` leaves the cursor on a cell that it has drawn, or beyond the end of a
line, or one line too high.  A key that comes there is drawn over a character or moves the
cursor by something else than one cell.

The print routine is cut into its statements and run by a program counter, since the places where a
key can come are the whole question.  Uninterrupted, the cut routine is `print`, so nothing is lost
by the cut.

* `Printing`, `statement`: a running `print`, statement by statement.
* `exists_print_run`: its uninterrupted run is `print`.
* `Move`, `Step`: a statement, or a key between two statements; `Spaced`, the moves that do no
  harm.
* `pending`: where the next character belongs; `statement_silent`, `statement_draw`,
  `pending_typed`.
* `PrintInv`, `printInv_step`: all characters are drawn before that cell, and each in its own.
* `inOrder_of_run`: the runs of such moves keep all characters apart.
-/

namespace EtaOs

open BasicRenderer CountedLoop Relation

/-! ## The statements of `print` -/

/-- The statement of `print` that is next: the test of the loop, the call of `draw_char`, the
advance of the cursor, the test for the end of the line, the two assignments of the line feed,
and the advance in the string. -/
inductive Pc
  | test
  | draw
  | advance
  | wrapTest
  | lineStart
  | feed
  | next
  | done
  deriving DecidableEq

/-- A running `print`, with the characters from `chr` on.  `drawn` lists the cells in which
characters were drawn, also by the handler. -/
structure Printing where
  pc : Pc
  str : List (BitVec 8)
  keyboard : Keyboard
  drawn : List Point

namespace Printing

/-- The cursor that `print` and the handler share. -/
def cursor (s : Printing) : Point := s.keyboard.globalRenderer.cursorPosition

/-- A change of the renderer, and the statement after it. -/
def goto (s : Printing) (r : BasicRenderer) (pc : Pc) : Printing :=
  { s with pc := pc, keyboard := { s.keyboard with globalRenderer := r } }

/-- The start of `print`. -/
def start (str : List (BitVec 8)) (k : Keyboard) : Printing := ⟨.test, str, k, []⟩

/-- One statement of `print`. -/
def statement (t : Target) (s : Printing) : Printing :=
  let r := s.keyboard.globalRenderer
  let p := s.cursor
  match s.pc with
  | .test => if s.str.headD 0 ≠ 0 then s.goto r .draw else s.goto r .done
  | .draw =>
      { s.goto (drawCharAt t (s.str.headD 0) (toUInt p.x) (toUInt p.y) r) .advance with
        drawn := p :: s.drawn }
  | .advance => s.goto (r.withCursor ⟨toLong (p.x + 8), p.y⟩) .wrapTest
  | .wrapTest =>
      if toLong (p.x + 8) > t.targetFramebuffer.width.toNat then s.goto r .lineStart
      else s.goto r .next
  | .lineStart => s.goto (r.withCursor ⟨0, p.y⟩) .feed
  | .feed => s.goto (r.withCursor ⟨p.x, toLong (p.y + 16)⟩) .next
  | .next => { s with pc := .test, str := s.str.tail }
  | .done => s

/-- The handler runs for a key with a character. -/
def typed (next : BitVec 8) (t : Target) (scancode : BitVec 8) (s : Printing) : Printing :=
  { s with keyboard := handleKeyboard next t scancode s.keyboard, drawn := s.cursor :: s.drawn }

/-- What happens next: a statement of `print`, or a key. -/
inductive Move
  | statement
  | key (scancode : BitVec 8)

section

variable (next : BitVec 8) (t : Target)

/-- The move. -/
def Move.run (s : Printing) : Move → Printing
  | .statement => s.statement t
  | .key scancode => s.typed next t scancode

/-- `print` is running, and a key has a character. -/
def Move.Enabled (s : Printing) : Move → Prop
  | .statement => s.pc ≠ .done
  | .key scancode => s.pc ≠ .done ∧ keyChar next scancode
      (s.keyboard.leftShiftPressed || s.keyboard.rightShiftPressed) ≠ 0

/-- A move of the running `print` and the handler. -/
def Step (s s' : Printing) : Prop := ∃ m : Move, m.Enabled next s ∧ s' = m.run next t s

/-- A key does no harm: it comes neither between drawing and advancing nor at the first
assignment of the line feed, at the test for the end of the line only within the line, and at the
second assignment only while the cell at the cursor is empty. -/
def KeySpaced (s : Printing) : Prop :=
  match s.pc with
  | .advance | .lineStart => False
  | .wrapTest => toLong (s.cursor.x + 8) ≤ t.targetFramebuffer.width.toNat
  | .feed => s.cursor ∉ s.drawn
  | .test | .draw | .next | .done => True

/-- The line is less than `2 ^ 32` rows below row `y₀`, and two line feeds from it stay in a
`long`. -/
def Near (y₀ y : ℤ) : Prop := y < y₀ + 2 ^ 32 ∧ y + 32 < 2 ^ 63

/-- **A move that does no harm**, when `print` starts in row `y₀`: characters are drawn near that
row, and keys come where they do no harm. -/
def Move.Spaced (y₀ : ℤ) (s : Printing) : Move → Prop
  | .statement => s.pc = .draw → Near y₀ s.cursor.y
  | .key _ => Near y₀ s.cursor.y ∧ KeySpaced t s

/-- A step that does no harm. -/
def SpacedStep (y₀ : ℤ) (s s' : Printing) : Prop :=
  ∃ m : Move, m.Enabled next s ∧ m.Spaced t y₀ s ∧ s' = m.run next t s

end

section

variable {next : BitVec 8} {t : Target} {s s' : Printing}

/-! ## The uninterrupted run -/

theorem cursor_drawCharAt (chr : BitVec 8) (xOff yOff : BitVec 32) (r : BasicRenderer) :
    (drawCharAt t chr xOff yOff r).cursorPosition = r.cursorPosition := by
  refine forRange_eq (f := cursorPosition) fun y r' _ _ =>
    forRange_eq (f := cursorPosition) fun x r' _ _ => ?_
  unfold drawPixel
  dsimp only
  split <;> rfl

/-- A statement of the running `print`. -/
def StatementStep (t : Target) (s s' : Printing) : Prop := s.pc ≠ .done ∧ s' = s.statement t

/-- **One iteration** of the loop draws a character as `draw_char` does. -/
theorem iteration_run {chr : BitVec 8} (hchr : chr ≠ 0) (str : List (BitVec 8)) (k : Keyboard)
    (drawn : List Point) :
    ReflTransGen (StatementStep t) ⟨.test, chr :: str, k, drawn⟩
      ⟨.test, str, { k with globalRenderer := k.globalRenderer.drawChar t chr },
        k.globalRenderer.cursorPosition :: drawn⟩ := by
  let p := k.globalRenderer.cursorPosition
  let r := k.globalRenderer.drawCharAt t chr (toUInt p.x) (toUInt p.y)
  let k' (q : Point) : Keyboard := { k with globalRenderer := r.withCursor q }
  have hr : r.withCursor p = r := by
    have hp : r.cursorPosition = p := cursor_drawCharAt _ _ _ _
    rw [← hp]
    rfl
  have htest : StatementStep t ⟨.test, chr :: str, k, drawn⟩ ⟨.draw, chr :: str, k, drawn⟩ :=
    ⟨nofun, (if_pos hchr).symm⟩
  have hcall : StatementStep t ⟨.draw, chr :: str, k, drawn⟩
      ⟨.advance, chr :: str, k' p, p :: drawn⟩ := by
    refine ⟨nofun, ?_⟩
    dsimp only [k']
    rw [hr]
    rfl
  have hadvance : StatementStep t ⟨.advance, chr :: str, k' p, p :: drawn⟩
      ⟨.wrapTest, chr :: str, k' ⟨toLong (p.x + 8), p.y⟩, p :: drawn⟩ := ⟨nofun, rfl⟩
  have hnext : ∀ q, StatementStep t ⟨.next, chr :: str, k' q, p :: drawn⟩
      ⟨.test, str, k' q, p :: drawn⟩ := fun q => ⟨nofun, rfl⟩
  have hdrawn : ∀ q, nextCell t p = q → ReflTransGen (StatementStep t)
      ⟨.wrapTest, chr :: str, k' ⟨toLong (p.x + 8), p.y⟩, p :: drawn⟩
      ⟨.test, str, k' q, p :: drawn⟩ := by
    rintro q rfl
    by_cases hwrap : toLong (toLong (p.x + 8) + 8) > t.targetFramebuffer.width.toNat
    · have hcell : nextCell t p = ⟨0, toLong (p.y + 16)⟩ := if_pos hwrap
      rw [hcell]
      refine ReflTransGen.head (b := ⟨.lineStart, _, k' ⟨toLong (p.x + 8), p.y⟩, _⟩)
        ⟨nofun, (if_pos hwrap).symm⟩ ?_
      refine ReflTransGen.head (b := ⟨.feed, _, k' ⟨0, p.y⟩, _⟩) ⟨nofun, rfl⟩ ?_
      exact ReflTransGen.head ⟨nofun, rfl⟩ (ReflTransGen.single (hnext ⟨0, toLong (p.y + 16)⟩))
    · have hcell : nextCell t p = ⟨toLong (p.x + 8), p.y⟩ := if_neg hwrap
      rw [hcell]
      exact ReflTransGen.head ⟨nofun, (if_neg hwrap).symm⟩ (ReflTransGen.single (hnext _))
  exact (((ReflTransGen.single htest).tail hcall).tail hadvance).trans (hdrawn _ rfl)

/-- **The uninterrupted run** ends with what `print` computes. -/
theorem exists_print_run (str : List (BitVec 8)) (k : Keyboard) (drawn : List Point) :
    ∃ s', ReflTransGen (StatementStep t) ⟨.test, str, k, drawn⟩ s' ∧ s'.pc = .done ∧
      s'.keyboard = { k with globalRenderer := k.globalRenderer.print t str } := by
  induction str generalizing k drawn with
  | nil => exact ⟨_, ReflTransGen.single ⟨nofun, rfl⟩, rfl, rfl⟩
  | cons chr str ih =>
      rcases eq_or_ne chr 0 with rfl | hchr
      · exact ⟨_, ReflTransGen.single ⟨nofun, rfl⟩, rfl, rfl⟩
      · obtain ⟨s', hrun, hdone, hkeyboard⟩ := ih _ _
        refine ⟨s', (iteration_run hchr str k drawn).trans hrun, hdone, ?_⟩
        rw [hkeyboard, print, if_pos hchr]

/-! ## Where the next character belongs -/

/-- The cell in which the next character belongs. -/
def pending (t : Target) (s : Printing) : Point :=
  let p := s.cursor
  match s.pc with
  | .advance => nextCell t p
  | .wrapTest =>
      if toLong (p.x + 8) > t.targetFramebuffer.width.toNat then ⟨0, toLong (p.y + 16)⟩ else p
  | .lineStart => ⟨0, toLong (p.y + 16)⟩
  | .feed => ⟨p.x, toLong (p.y + 16)⟩
  | .test | .draw | .next | .done => p

/-- **The statements other than the call of `draw_char`** draw nothing, and the next character
belongs where it did. -/
theorem statement_silent (h : s.pc ≠ .draw) :
    (s.statement t).drawn = s.drawn ∧ pending t (s.statement t) = pending t s := by
  obtain ⟨pc, str, k, drawn⟩ := s
  cases pc with
  | test =>
      unfold statement
      dsimp only
      split <;> exact ⟨rfl, rfl⟩
  | draw => exact absurd rfl h
  | advance => exact ⟨rfl, rfl⟩
  | wrapTest =>
      by_cases hwrap : toLong (k.globalRenderer.cursorPosition.x + 8) >
          t.targetFramebuffer.width.toNat
      · have hnext : statement t ⟨.wrapTest, str, k, drawn⟩ = ⟨.lineStart, str, k, drawn⟩ :=
          if_pos hwrap
        rw [hnext]
        exact ⟨rfl, (if_pos hwrap).symm⟩
      · have hnext : statement t ⟨.wrapTest, str, k, drawn⟩ = ⟨.next, str, k, drawn⟩ :=
          if_neg hwrap
        rw [hnext]
        exact ⟨rfl, (if_neg hwrap).symm⟩
  | lineStart => exact ⟨rfl, rfl⟩
  | feed => exact ⟨rfl, rfl⟩
  | next => exact ⟨rfl, rfl⟩
  | done => exact ⟨rfl, rfl⟩

/-- The call draws at the cursor. -/
theorem statement_draw (h : s.pc = .draw) : (s.statement t).drawn = s.cursor :: s.drawn ∧
    pending t (s.statement t) = nextCell t s.cursor := by
  obtain ⟨pc, str, k, drawn⟩ := s
  obtain rfl : pc = .draw := h
  exact ⟨rfl, congrArg (nextCell t) (cursor_drawCharAt _ _ _ _)⟩

/-- A key with a character moves the cursor as `draw_char` does. -/
theorem cursor_typed {scancode : BitVec 8} (hchar : keyChar next scancode
    (s.keyboard.leftShiftPressed || s.keyboard.rightShiftPressed) ≠ 0) :
    (s.typed next t scancode).cursor = nextCell t s.cursor := by
  have hcontrol : scancode ∉ control := fun h => hchar (if_pos h)
  unfold typed cursor
  dsimp only
  rw [handleKeyboard_of_notMem hcontrol, if_pos hchar]
  exact cursor_drawChar _ _

/-! ## The range of the cursor -/

/-- The cursor is in the range of the statement that is next, not above row `y₀`.  It may be
beyond the end of the line, and a line feed may be pending. -/
def InRange (y₀ : ℤ) (pc : Pc) (p : Point) : Prop :=
  0 ≤ p.x ∧ y₀ ≤ p.y ∧
    match pc with
    | .wrapTest | .lineStart => p.x < 2 ^ 32 + 8 ∧ p.y + 16 < 2 ^ 63
    | .advance | .feed => p.x < 2 ^ 32 ∧ p.y + 16 < 2 ^ 63
    | .test | .draw | .next | .done => p.x < 2 ^ 32

theorem InRange.x_lt {y₀ : ℤ} {pc : Pc} {p : Point} (h : InRange y₀ pc p) :
    p.x < 2 ^ 32 + 8 := by
  obtain ⟨-, -, h⟩ := h
  cases pc <;> dsimp only at h <;> omega

/-- **A statement keeps the range.** -/
theorem inRange_statement {y₀ : ℤ} (hy₀ : 0 ≤ y₀) (hspaced : s.pc = .draw → Near y₀ s.cursor.y)
    (h : InRange y₀ s.pc s.cursor) :
    InRange y₀ (s.statement t).pc (s.statement t).cursor := by
  obtain ⟨pc, str, ⟨left, right, ⟨p, pixels, stores, reads⟩⟩, drawn⟩ := s
  have hwidth := t.targetFramebuffer.width.isLt
  change InRange y₀ pc p at h
  obtain ⟨hx0, hy0, h⟩ := h
  cases pc with
  | test =>
      unfold statement
      dsimp only
      split <;> exact ⟨hx0, hy0, h⟩
  | draw =>
      have hy : p.y + 32 < 2 ^ 63 := (hspaced rfl).2
      have hcursor : (statement t ⟨.draw, str, ⟨left, right, ⟨p, pixels, stores, reads⟩⟩,
          drawn⟩).cursor = p := cursor_drawCharAt _ _ _ _
      rw [hcursor]
      exact ⟨hx0, hy0, h, by omega⟩
  | advance =>
      have hnext : toLong (p.x + 8) = p.x + 8 := toLong_of_lt (by omega) (by omega)
      have hmove : InRange y₀ .wrapTest ⟨toLong (p.x + 8), p.y⟩ := by
        rw [hnext]
        exact ⟨by dsimp only; omega, hy0, by dsimp only; omega, h.2⟩
      exact hmove
  | wrapTest =>
      have hend : toLong (p.x + 8) = p.x + 8 := toLong_of_lt (by omega) (by omega)
      unfold statement
      dsimp only
      split
      next => exact ⟨hx0, hy0, h⟩
      next hline =>
        have hle : toLong (p.x + 8) ≤ t.targetFramebuffer.width.toNat := Int.not_lt.mp hline
        have hx : p.x < 2 ^ 32 := by omega
        exact ⟨hx0, hy0, hx⟩
  | lineStart =>
      have hx : (0 : ℤ) < 2 ^ 32 := by decide
      exact ⟨le_refl _, hy0, hx, h.2⟩
  | feed =>
      have hfeed : toLong (p.y + 16) = p.y + 16 := toLong_of_lt (by omega) (by omega)
      have hmove : InRange y₀ .next ⟨p.x, toLong (p.y + 16)⟩ := by
        rw [hfeed]
        exact ⟨hx0, by dsimp only; omega, h.1⟩
      exact hmove
  | next => exact ⟨hx0, hy0, h⟩
  | done => exact ⟨hx0, hy0, h⟩

/-! ## Spaced keys -/

/-- Where a spaced key is drawn: in the cell in which the next character belongs, or in an empty
one above. -/
theorem pending_of_keySpaced (h : KeySpaced t s) : pending t s = s.cursor ∨
    pending t s = ⟨s.cursor.x, toLong (s.cursor.y + 16)⟩ ∧ s.cursor ∉ s.drawn := by
  obtain ⟨pc, str, k, drawn⟩ := s
  cases pc with
  | test => exact Or.inl rfl
  | draw => exact Or.inl rfl
  | advance => exact h.elim
  | wrapTest => exact Or.inl (if_neg (Int.not_lt.mpr h))
  | lineStart => exact h.elim
  | feed => exact Or.inr ⟨rfl, h⟩
  | next => exact Or.inl rfl
  | done => exact Or.inl rfl

/-- A spaced key is drawn in a column that is an `unsigned int`. -/
theorem x_lt_of_keySpaced {y₀ : ℤ} (h : KeySpaced t s) (hr : InRange y₀ s.pc s.cursor) :
    s.cursor.x < 2 ^ 32 := by
  obtain ⟨pc, str, k, drawn⟩ := s
  have hwidth := t.targetFramebuffer.width.isLt
  have hlt := hr.x_lt
  obtain ⟨hx0, -, hr⟩ := hr
  cases pc with
  | test => exact hr
  | draw => exact hr
  | advance => exact h.elim
  | wrapTest =>
      have hle : toLong ((cursor ⟨.wrapTest, str, k, drawn⟩).x + 8) ≤
        t.targetFramebuffer.width.toNat := h
      rw [toLong_of_lt (by omega) (by omega)] at hle
      omega
  | lineStart => exact h.elim
  | feed => exact hr.1
  | next => exact hr
  | done => exact hr

/-- A character within the line leaves the cursor within a line. -/
theorem nextCell_le_width {p : Point} (hx0 : 0 ≤ p.x) (hx : p.x < 2 ^ 32)
    (hle : toLong (p.x + 8) ≤ t.targetFramebuffer.width.toNat) :
    toLong ((nextCell t p).x + 8) ≤ t.targetFramebuffer.width.toNat := by
  have hend : toLong (p.x + 8) = p.x + 8 := toLong_of_lt (by omega) (by omega)
  unfold nextCell
  dsimp only
  split
  next =>
    have hstart : toLong (0 + 8) = 8 := rfl
    dsimp only
    omega
  next hline => exact Int.not_lt.mp hline

/-- **A spaced key** moves on the cell in which the next character belongs. -/
theorem pending_typed {y₀ : ℤ} {scancode : BitVec 8} (hchar : keyChar next scancode
    (s.keyboard.leftShiftPressed || s.keyboard.rightShiftPressed) ≠ 0)
    (h : KeySpaced t s) (hr : InRange y₀ s.pc s.cursor) :
    pending t (s.typed next t scancode) = nextCell t (pending t s) := by
  have hcursor := cursor_typed (t := t) hchar
  have hx := x_lt_of_keySpaced h hr
  have hx0 := hr.1
  obtain ⟨pc, str, k, drawn⟩ := s
  cases pc with
  | test => exact hcursor
  | draw => exact hcursor
  | advance => exact h.elim
  | wrapTest =>
      have hle := nextCell_le_width hx0 hx h
      rw [← hcursor] at hle
      have hbefore : pending t ⟨.wrapTest, str, k, drawn⟩ = cursor ⟨.wrapTest, str, k, drawn⟩ :=
        if_neg (Int.not_lt.mpr h)
      rw [hbefore, ← hcursor]
      exact if_neg (Int.not_lt.mpr hle)
  | lineStart => exact h.elim
  | feed =>
      have hafter : pending t (typed next t scancode ⟨.feed, str, k, drawn⟩) =
          ⟨(nextCell t k.globalRenderer.cursorPosition).x,
            toLong ((nextCell t k.globalRenderer.cursorPosition).y + 16)⟩ := by
        rw [← show (typed next t scancode ⟨.feed, str, k, drawn⟩).cursor =
          nextCell t k.globalRenderer.cursorPosition from hcursor]
        rfl
      have hbefore : pending t ⟨.feed, str, k, drawn⟩ = ⟨k.globalRenderer.cursorPosition.x,
        toLong (k.globalRenderer.cursorPosition.y + 16)⟩ := rfl
      rw [hafter, hbefore]
      unfold nextCell
      dsimp only
      split <;> rfl
  | next => exact hcursor
  | done => exact hcursor

/-- A spaced key keeps the range. -/
theorem inRange_typed {y₀ : ℤ} (hy₀ : 0 ≤ y₀) {scancode : BitVec 8} (hchar : keyChar next scancode
    (s.keyboard.leftShiftPressed || s.keyboard.rightShiftPressed) ≠ 0)
    (h : KeySpaced t s) (hy : s.cursor.y + 32 < 2 ^ 63) (hr : InRange y₀ s.pc s.cursor) :
    InRange y₀ (s.typed next t scancode).pc (s.typed next t scancode).cursor := by
  have hwidth := t.targetFramebuffer.width.isLt
  have hx := x_lt_of_keySpaced h hr
  obtain ⟨hx0, hy0, hr⟩ := hr
  have hmove := nextCell_eq (t := t) hx0 (by omega) (by omega) (by omega)
  have hx0' : 0 ≤ (nextCell t s.cursor).x := by
    rw [hmove]
    split <;> dsimp only <;> omega
  have hx' : (nextCell t s.cursor).x < 2 ^ 32 := by
    rw [hmove]
    split <;> dsimp only <;> omega
  have hy0' : y₀ ≤ (nextCell t s.cursor).y := by
    rw [hmove]
    split <;> dsimp only <;> omega
  have hy' : (nextCell t s.cursor).y + 16 < 2 ^ 63 := by
    rw [hmove]
    split <;> dsimp only <;> omega
  rw [cursor_typed hchar]
  refine ⟨hx0', hy0', ?_⟩
  obtain ⟨pc, str, k, drawn⟩ := s
  cases pc with
  | test => exact hx'
  | draw => exact hx'
  | advance => exact h.elim
  | wrapTest => exact ⟨by omega, hy'⟩
  | lineStart => exact h.elim
  | feed => exact ⟨hx', hy'⟩
  | next => exact hx'
  | done => exact hx'

/-! ## The invariant -/

/-- The place of a cell in reading order. -/
def place (p : Point) : ℤ ×ₗ ℤ := toLex (p.y, p.x)

/-- A character moves on in reading order. -/
theorem place_lt_nextCell {p : Point} (hx0 : 0 ≤ p.x) (hx : p.x < 2 ^ 33) (hy0 : 0 ≤ p.y)
    (hy : p.y + 16 < 2 ^ 63) : place p < place (nextCell t p) := by
  rw [nextCell_eq hx0 hx hy0 hy, place, place, Prod.Lex.toLex_lt_toLex]
  split <;> dsimp only <;> omega

/-- **The invariant of a running `print`** that started at `p₀`. -/
structure PrintInv (t : Target) (p₀ : Point) (s : Printing) : Prop where
  pending_eq : pending t s = (nextCell t)^[s.drawn.length] p₀
  nodup : s.drawn.Nodup
  before : ∀ d ∈ s.drawn, place d < place (pending t s)
  offsets : ∀ d ∈ s.drawn, (0 ≤ d.x ∧ d.x < 2 ^ 32) ∧ p₀.y ≤ d.y ∧ d.y < p₀.y + 2 ^ 32
  range : InRange p₀.y s.pc s.cursor

variable {p₀ : Point}

/-- **A character is drawn** in the cell where it belongs, or in an empty one above. -/
theorem PrintInv.draw (hp₀ : 0 ≤ p₀.y) (h : PrintInv t p₀ s) (hx : s.cursor.x < 2 ^ 32)
    (hnear : Near p₀.y s.cursor.y)
    (hcell : pending t s = s.cursor ∨
      pending t s = ⟨s.cursor.x, toLong (s.cursor.y + 16)⟩ ∧ s.cursor ∉ s.drawn)
    (hdrawn : s'.drawn = s.cursor :: s.drawn) (hpending : pending t s' = nextCell t (pending t s))
    (hrange : InRange p₀.y s'.pc s'.cursor) : PrintInv t p₀ s' := by
  obtain ⟨hx0, hy0, -⟩ := h.range
  obtain ⟨hy, hlong⟩ := hnear
  have hfeed : toLong (s.cursor.y + 16) = s.cursor.y + 16 := toLong_of_lt (by omega) (by omega)
  rw [hfeed] at hcell
  have hnew : s.cursor ∉ s.drawn := by
    rcases hcell with hcell | ⟨-, hnew⟩
    · intro hmem
      have hlt := h.before _ hmem
      rw [hcell] at hlt
      exact lt_irrefl _ hlt
    · exact hnew
  have hle : place s.cursor ≤ place (pending t s) := by
    rcases hcell with hcell | ⟨hcell, -⟩
    · rw [hcell]
    · rw [hcell]
      refine le_of_lt (Prod.Lex.toLex_lt_toLex.mpr (Or.inl ?_))
      dsimp only
      omega
  have hlt : place (pending t s) < place (nextCell t (pending t s)) := by
    rcases hcell with hcell | ⟨hcell, -⟩
    · rw [hcell]
      exact place_lt_nextCell hx0 (by omega) (by omega) (by omega)
    · rw [hcell]
      exact place_lt_nextCell hx0 (by dsimp only; omega) (by dsimp only; omega)
        (by dsimp only; omega)
  refine ⟨?_, ?_, ?_, ?_, hrange⟩
  · rw [hpending, hdrawn, h.pending_eq, List.length_cons, Function.iterate_succ_apply']
  · rw [hdrawn]
    exact List.nodup_cons.mpr ⟨hnew, h.nodup⟩
  · rw [hdrawn, hpending]
    exact List.forall_mem_cons.mpr
      ⟨lt_of_le_of_lt hle hlt, fun d hd => lt_trans (h.before d hd) hlt⟩
  · rw [hdrawn]
    exact List.forall_mem_cons.mpr ⟨⟨⟨hx0, hx⟩, hy0, hy⟩, h.offsets⟩

/-- **A spaced step keeps the invariant.** -/
theorem printInv_step (hp₀ : 0 ≤ p₀.y) (hstep : SpacedStep next t p₀.y s s')
    (h : PrintInv t p₀ s) : PrintInv t p₀ s' := by
  obtain ⟨m, henabled, hspaced, rfl⟩ := hstep
  cases m with
  | statement =>
      have hrange := inRange_statement (t := t) hp₀ hspaced h.range
      rcases eq_or_ne s.pc .draw with hpc | hpc
      · have hcell : pending t s = s.cursor := by
          unfold pending
          rw [hpc]
        have hx : s.cursor.x < 2 ^ 32 := by
          obtain ⟨-, -, hx⟩ := h.range
          rwa [hpc] at hx
        obtain ⟨hdrawn, hpending⟩ := statement_draw (t := t) hpc
        rw [← hcell] at hpending
        exact h.draw hp₀ hx (hspaced hpc) (Or.inl hcell) hdrawn hpending hrange
      · obtain ⟨hdrawn, hpending⟩ := statement_silent (t := t) hpc
        refine ⟨?_, ?_, ?_, ?_, hrange⟩
        · rw [Move.run, hpending, hdrawn]
          exact h.pending_eq
        · rw [Move.run, hdrawn]
          exact h.nodup
        · rw [Move.run, hpending, hdrawn]
          exact h.before
        · rw [Move.run, hdrawn]
          exact h.offsets
  | key scancode =>
      obtain ⟨-, hchar⟩ := henabled
      obtain ⟨hnear, hkey⟩ := hspaced
      exact h.draw hp₀ (x_lt_of_keySpaced hkey h.range) hnear (pending_of_keySpaced hkey) rfl
        (pending_typed hchar hkey h.range) (inRange_typed hp₀ hchar hkey hnear.2 h.range)

/-! ## Runs -/

/-- Where `draw_char` is told to draw. -/
def offset (p : Point) : BitVec 32 × BitVec 32 := (toUInt p.x, toUInt p.y)

/-- **No two characters are in one cell**, and at the end the cursor has advanced by the number of
characters drawn. -/
structure InOrder (t : Target) (p₀ : Point) (s : Printing) : Prop where
  distinct : (s.drawn.map offset).Nodup
  advanced : s.pc = .done → s.cursor = (nextCell t)^[s.drawn.length] p₀

theorem PrintInv.inOrder (h : PrintInv t p₀ s) : InOrder t p₀ s := by
  refine ⟨List.Nodup.map_on ?_ h.nodup, fun hdone => ?_⟩
  · intro d hd e he heq
    obtain ⟨⟨hdx0, hdx⟩, hdy0, hdy⟩ := h.offsets d hd
    obtain ⟨⟨hex0, hex⟩, hey0, hey⟩ := h.offsets e he
    obtain ⟨hx, hy⟩ := Prod.mk.inj heq
    have hx' := congrArg BitVec.toNat hx
    have hy' := congrArg BitVec.toNat hy
    unfold toUInt at hx' hy'
    rw [BitVec.toNat_ofInt, BitVec.toNat_ofInt] at hx' hy'
    obtain ⟨dx, dy⟩ := d
    obtain ⟨ex, ey⟩ := e
    rw [Point.mk.injEq]
    dsimp only at *
    constructor <;> omega
  · rw [← h.pending_eq]
    unfold pending
    rw [hdone]

/-- **The runs that keep all characters apart**: those in which keys come where they do no harm,
and characters are drawn near the row of the start. -/
theorem inOrder_of_run (str : List (BitVec 8)) (k : Keyboard)
    (hx0 : 0 ≤ k.globalRenderer.cursorPosition.x)
    (hx : k.globalRenderer.cursorPosition.x < 2 ^ 32)
    (hy0 : 0 ≤ k.globalRenderer.cursorPosition.y)
    (hrun : ReflTransGen (SpacedStep next t k.globalRenderer.cursorPosition.y) (start str k) s) :
    InOrder t k.globalRenderer.cursorPosition s := by
  have hstart : PrintInv t k.globalRenderer.cursorPosition (start str k) :=
    ⟨rfl, List.nodup_nil, fun d hd => absurd hd List.not_mem_nil,
      fun d hd => absurd hd List.not_mem_nil, ⟨hx0, le_refl _, hx⟩⟩
  have hinv : PrintInv t k.globalRenderer.cursorPosition s :=
    Runs.invariant (fun s s' (hstep : SpacedStep next t _ s s') => printInv_step hy0 hstep)
      hrun hstart
  exact hinv.inOrder

end

/-- The keyboard at the start of a screen. -/
def atStart : Keyboard := Keyboard.init fun _ => 0

/-- A key between the advance of the cursor behind the first character and the test for the end of
the line. -/
theorem inOrder_key_advanced : ∃ s, ReflTransGen (SpacedStep 0 (screen 640 480) 0)
    (start [0x41] atStart) s ∧ s.drawn = [⟨8, 0⟩, ⟨0, 0⟩] ∧
      InOrder (screen 640 480) ⟨0, 0⟩ s := by
  let s₁ : Printing := ⟨.draw, [0x41], atStart, []⟩
  let s₂ : Printing := statement (screen 640 480) s₁
  let s₃ : Printing := statement (screen 640 480) s₂
  have hnear : Near 0 0 := ⟨by decide, by decide⟩
  have htest : SpacedStep 0 (screen 640 480) 0 (start [0x41] atStart) s₁ :=
    ⟨.statement, nofun, nofun, rfl⟩
  have hdraw : SpacedStep 0 (screen 640 480) 0 s₁ s₂ := ⟨.statement, nofun, fun _ => hnear, rfl⟩
  have hadvance : SpacedStep 0 (screen 640 480) 0 s₂ s₃ := ⟨.statement, nofun, nofun, rfl⟩
  have hcursor₂ : s₂.cursor = ⟨0, 0⟩ := cursor_drawCharAt _ _ _ _
  have hcursor₃ : s₃.cursor = ⟨8, 0⟩ := by
    show (⟨toLong (s₂.cursor.x + 8), s₂.cursor.y⟩ : Point) = ⟨8, 0⟩
    rw [hcursor₂]
    decide
  have hkey : SpacedStep 0 (screen 640 480) 0 s₃ (s₃.typed 0 (screen 640 480) 0x1e) := by
    refine ⟨.key 0x1e, ⟨nofun, by decide⟩, ⟨?_, ?_⟩, rfl⟩
    · rw [hcursor₃]
      exact hnear
    · show toLong (s₃.cursor.x + 8) ≤ 640
      rw [hcursor₃]
      decide
  have hrun := (((ReflTransGen.single htest).tail hdraw).tail hadvance).tail hkey
  refine ⟨_, hrun, ?_, inOrder_of_run [0x41] atStart (le_refl _) (by decide) (le_refl _) hrun⟩
  show [s₃.cursor, s₁.cursor] = _
  rw [hcursor₃]
  rfl

/-- A key between the drawing of the first character and the advance of the cursor. -/
theorem not_inOrder_key_drawn : ¬ ∀ s, ReflTransGen (Step 0 (screen 640 480))
    (start [0x41] atStart) s → InOrder (screen 640 480) ⟨0, 0⟩ s := by
  intro hclaim
  have htest : Step 0 (screen 640 480) (start [0x41] atStart) ⟨.draw, [0x41], atStart, []⟩ :=
    ⟨.statement, nofun, rfl⟩
  have hdraw : Step 0 (screen 640 480) ⟨.draw, [0x41], atStart, []⟩
      (statement (screen 640 480) ⟨.draw, [0x41], atStart, []⟩) := ⟨.statement, nofun, rfl⟩
  have hkey : Step 0 (screen 640 480) (statement (screen 640 480) ⟨.draw, [0x41], atStart, []⟩)
      (typed 0 (screen 640 480) 0x1e (statement (screen 640 480) ⟨.draw, [0x41], atStart, []⟩)) :=
    ⟨.key 0x1e, ⟨nofun, by decide⟩, rfl⟩
  have hcursor : (statement (screen 640 480) ⟨.draw, [0x41], atStart, []⟩).cursor = ⟨0, 0⟩ :=
    cursor_drawCharAt _ _ _ _
  have hdistinct := (hclaim _ (((ReflTransGen.single htest).tail hdraw).tail hkey)).distinct
  have hdrawn : (typed 0 (screen 640 480) 0x1e
      (statement (screen 640 480) ⟨.draw, [0x41], atStart, []⟩)).drawn = [⟨0, 0⟩, ⟨0, 0⟩] :=
    congrArg (fun p => [p, (⟨0, 0⟩ : Point)]) hcursor
  rw [hdrawn] at hdistinct
  exact absurd hdistinct (by decide)

end Printing

end EtaOs
