import EtaOs.Library.IntLoop
import EtaOs.Renderer.Terminal
import Mathlib.Data.List.TakeWhile
import Mathlib.Data.Nat.Find

/-!
# The panic screen

`panic` clears the framebuffer and prints a title and a message in the middle of it.  Neither is
on the character grid.  The length of the message is counted in a variable that is not
initialised: the count starts at whatever is there, and goes on to the next NUL.  Up to the length
of the message this makes no difference.

The screen is the last thing that the kernel shows, so what is asked is what can be read on it: the
pixels of the two texts in the color of the text, and the clear color everywhere else.

* `clear`, `pixels_clear`: all visible pixels get the clear color.
* `pixels_print`: what a string does to a pixel, on the grid or off it.
* `countUp`, `panic`: the count, and the panic screen.
* `panic_shown`: what is on the screen after it.
-/

namespace EtaOs

open Bootloader CountedLoop IntLoop

namespace BasicRenderer

/-! ## Clearing -/

/-- `bytes_per_scanline`. -/
def bytesPerScanline (t : Target) : BitVec 64 :=
  (t.targetFramebuffer.pixelsPerScanline * 4).setWidth 64

/-- A store through `pix_ptr`, at column `x` of a line whose first pixel is `start`. -/
def clearPixel (t : Target) (line : BitVec 32) (start x : ℕ) (r : BasicRenderer) : BasicRenderer :=
  { r with
    pixels := Function.update r.pixels (start + x) t.clearColor
    stores := (line.toNat, x) :: r.stores }

/-- `clear`. -/
def clear (t : Target) (r : BasicRenderer) : BasicRenderer :=
  forInt (t.targetFramebuffer.height.setWidth 64)
    (fun line => forRange 0 ((bytesPerScanline t).toNat / 4)
      (clearPixel t line ((bytesPerScanline t * line.signExtend 64).toNat / 4))) r

/-- The pixels that the loop over a line stores. -/
theorem pixels_clearLine (t : Target) (line : BitVec 32) (start n j : ℕ) (r : BasicRenderer) :
    (forRange 0 n (clearPixel t line start) r).pixels j = t.clearColor ↔
      r.pixels j = t.clearColor ∨ ∃ x, 0 ≤ x ∧ x < n ∧ j = start + x := by
  refine forRange_iff (Q := fun r : BasicRenderer => r.pixels j = t.clearColor) fun x r _ _ => ?_
  unfold clearPixel
  dsimp only
  rw [Function.update_apply]
  split
  next heq => exact iff_of_true rfl (Or.inr heq)
  next hne => exact (or_iff_left hne).symm

/-- **Clearing** gives every pixel of the rows of the framebuffer the clear color. -/
theorem pixels_clear {t : Target} (hheight : t.targetFramebuffer.height.toNat < 2 ^ 31)
    (hpps : t.targetFramebuffer.pixelsPerScanline.toNat < 2 ^ 30) (r : BasicRenderer) {y x : ℕ}
    (hy : y < t.targetFramebuffer.height.toNat)
    (hx : x < t.targetFramebuffer.pixelsPerScanline.toNat) :
    (clear t r).pixels (x + y * t.targetFramebuffer.pixelsPerScanline.toNat) = t.clearColor := by
  have hbytes : (bytesPerScanline t).toNat =
      4 * t.targetFramebuffer.pixelsPerScanline.toNat := by
    unfold bytesPerScanline
    bv_omega
  have hline : (BitVec.ofNat 32 y).toNat = y := by
    rw [BitVec.toNat_ofNat]
    omega
  have hwiden : (t.targetFramebuffer.height.setWidth 64).toNat =
      t.targetFramebuffer.height.toNat := by
    rw [BitVec.toNat_setWidth]
    omega
  have hstart : (bytesPerScanline t * (BitVec.ofNat 32 y).signExtend 64).toNat / 4 =
      y * t.targetFramebuffer.pixelsPerScanline.toNat := by
    have hmul : t.targetFramebuffer.pixelsPerScanline.toNat * y ≤ 2 ^ 30 * 2 ^ 31 :=
      Nat.mul_le_mul (le_of_lt hpps) (by omega)
    rw [BitVec.toNat_mul, signExtend_of_lt (by omega), hline, hbytes, Nat.mul_assoc,
      Nat.mod_eq_of_lt (by omega), Nat.mul_div_cancel_left _ (by omega), Nat.mul_comm]
  have hcolumn : x < (bytesPerScanline t).toNat / 4 := by omega
  have hiter : Iter (t.targetFramebuffer.height.setWidth 64) (BitVec.ofNat 32 y) :=
    iter_of_lt (by omega) (by omega)
  refine (forInt_iff (I := fun _ => True) (Q := fun r : BasicRenderer =>
      r.pixels (x + y * t.targetFramebuffer.pixelsPerScanline.toNat) = t.clearColor)
    (fun _ _ _ _ => trivial) (fun line r _ _ => pixels_clearLine t line
      ((bytesPerScanline t * line.signExtend 64).toNat / 4) _ _ r) trivial).mpr
      (Or.inr ⟨BitVec.ofNat 32 y, hiter, x, Nat.zero_le x, hcolumn, ?_⟩)
  rw [hstart]
  exact Nat.add_comm _ _

/-! ## Strings anywhere -/

section Strings

variable {t : Target} {j : ℕ}

/-- A character of the string stores the pixel. -/
def Prints (t : Target) (str : List (BitVec 8)) (p : Point) (j : ℕ) : Prop :=
  ∃ n < strlen str, ∃ q, DrawWrites t (str.getD n 0) (toUInt ((nextCell t)^[n] p).x)
    (toUInt ((nextCell t)^[n] p).y) q ∧ j = q.2 + q.1 * t.targetFramebuffer.pixelsPerScanline.toNat

theorem prints_cons_iff {chr : BitVec 8} {str : List (BitVec 8)} {p : Point} (hchr : chr ≠ 0) :
    Prints t (chr :: str) p j ↔
      (∃ q, DrawWrites t chr (toUInt p.x) (toUInt p.y) q ∧
        j = q.2 + q.1 * t.targetFramebuffer.pixelsPerScanline.toNat) ∨
      Prints t str (nextCell t p) j := by
  unfold Prints
  rw [strlen_cons_of_ne hchr, Nat.exists_lt_succ_left]
  rfl

/-- **What a string does to a pixel**: it gets the color, or is left alone. -/
theorem pixels_print (str : List (BitVec 8)) (r : BasicRenderer) :
    (Prints t str r.cursorPosition j → (print t str r).pixels j = t.color) ∧
      (¬ Prints t str r.cursorPosition j → (print t str r).pixels j = r.pixels j) := by
  induction str generalizing r with
  | nil => exact ⟨fun ⟨n, hn, _⟩ => absurd hn (Nat.not_lt_zero n), fun _ => rfl⟩
  | cons chr str ih =>
      rw [print]
      split
      next hchr =>
        obtain ⟨hlit, hkept⟩ := ih (drawChar t chr r)
        rw [cursor_drawChar] at hlit hkept
        rw [prints_cons_iff hchr]
        constructor
        · rintro (⟨q, hq, rfl⟩ | hrest)
          · by_cases hrest : Prints t str (nextCell t r.cursorPosition)
                (q.2 + q.1 * t.targetFramebuffer.pixelsPerScanline.toNat)
            · exact hlit hrest
            · exact (hkept hrest).trans (pixels_drawCharAt_of_writes hq r)
          · exact hlit hrest
        · intro h
          rw [not_or] at h
          exact (hkept h.2).trans
            (pixels_drawCharAt_of_ne (fun q hq heq => h.1 ⟨q, hq, heq⟩) r)
      next hnul =>
        refine ⟨fun h => ?_, fun _ => rfl⟩
        obtain ⟨n, hn, -⟩ := h
        rw [strlen_cons_of_eq (not_not.mp hnul)] at hn
        exact absurd hn (Nat.not_lt_zero n)

/-- Characters that are printed within a line. -/
theorem iterate_nextCell_line {p : Point} (hx : 0 ≤ p.x) (hy0 : 0 ≤ p.y) (hy : p.y + 16 < 2 ^ 63)
    {n : ℕ} (hn : p.x + 8 * n + 8 ≤ t.targetFramebuffer.width.toNat) :
    (nextCell t)^[n] p = ⟨p.x + 8 * n, p.y⟩ := by
  have hwidth := t.targetFramebuffer.width.isLt
  induction n with
  | zero => exact (Point.mk.injEq _ _ _ _).mpr ⟨(Int.add_zero p.x).symm, rfl⟩
  | succ n ih =>
      have hnext := nextCell_eq (t := t) (p := ⟨p.x + 8 * n, p.y⟩) (by dsimp only; omega)
        (by dsimp only; omega) hy0 hy
      rw [Function.iterate_succ_apply', ih (by omega), hnext, if_neg (by dsimp only; omega),
        Point.mk.injEq]
      dsimp only
      constructor <;> omega

/-- The string is lit at row `y` and column `x` when it starts at row `y₀` and column `x₀`. -/
def LitText (t : Target) (str : List (BitVec 8)) (y₀ x₀ y x : ℕ) : Prop :=
  ∃ n < str.length, ∃ i < 16, ∃ k < 8, Lit t (str.getD n 0) i k ∧ y = y₀ + i ∧ x = x₀ + 8 * n + k

theorem strlen_eq_length {str : List (BitVec 8)} (h : ∀ chr ∈ str, chr ≠ 0) :
    strlen str = str.length := by
  unfold strlen
  rw [List.takeWhile_eq_self_iff.mpr fun chr hmem => by simpa using h chr hmem]

/-- **A string within a line** stores the pixels of its glyphs. -/
theorem prints_iff_litText {str : List (BitVec 8)} (hstr : ∀ chr ∈ str, chr ≠ 0) {y₀ x₀ y x : ℕ}
    (hpps : t.targetFramebuffer.width.toNat ≤ t.targetFramebuffer.pixelsPerScanline.toNat)
    (hfits : x₀ + 8 * str.length ≤ t.targetFramebuffer.width.toNat) (hrows : y₀ + 16 < 2 ^ 32)
    (hx : x < t.targetFramebuffer.width.toNat) :
    Prints t str ⟨x₀, y₀⟩ (x + y * t.targetFramebuffer.pixelsPerScanline.toNat) ↔
      LitText t str y₀ x₀ y x := by
  have hwidth := t.targetFramebuffer.width.isLt
  unfold Prints LitText
  rw [strlen_eq_length hstr]
  refine exists_congr fun n => and_congr_right fun hn => ?_
  rw [iterate_nextCell_line (by dsimp only; omega) (by dsimp only; omega) (by dsimp only; omega)
    (by dsimp only; omega)]
  dsimp only
  have hxoff : (toUInt ((x₀ : ℤ) + 8 * (n : ℤ))).toNat = x₀ + 8 * n := by
    rw [toNat_toUInt (by omega) (by omega)]
    omega
  have hyoff : (toUInt (y₀ : ℤ)).toNat = y₀ := by
    rw [toNat_toUInt (by omega) (by omega)]
    omega
  constructor
  · rintro ⟨q, ⟨-, i, hi, k, hk, hlit, rfl⟩, heq⟩
    rw [hxoff, hyoff] at heq
    obtain ⟨rfl, rfl⟩ := eq_of_pixel_eq (by omega) (by dsimp only; omega) heq
    exact ⟨i, hi, k, hk, hlit, rfl, rfl⟩
  · rintro ⟨i, hi, k, hk, hlit, rfl, rfl⟩
    refine ⟨_, ⟨⟨by omega, by omega⟩, i, hi, k, hk, hlit, rfl⟩, ?_⟩
    rw [hxoff, hyoff]

end Strings

/-! ## The count -/

/-- The byte `msg[i]`: the string, its NUL, and what is behind. -/
def byteAt (msg : List (BitVec 8)) (behind : ℕ → BitVec 8) (i : ℕ) : BitVec 8 :=
  if i < msg.length then msg.getD i 0 else if i = msg.length then 0 else behind i

/-- The loop that counts `msg_size` up to a NUL, for so many iterations. -/
def countUp (byte : ℕ → BitVec 8) : ℕ → BitVec 16 → Option (BitVec 16)
  | 0, _ => none
  | fuel + 1, msgSize =>
      if byte msgSize.toNat ≠ 0 then countUp byte fuel (msgSize + 1) else some msgSize

/-- **The count goes to the next NUL.** -/
theorem countUp_eq {byte : ℕ → BitVec 8} {d fuel : ℕ} {n : BitVec 16} (hfuel : d < fuel)
    (hnul : byte (n + BitVec.ofNat 16 d).toNat = 0)
    (hne : ∀ i < d, byte (n + BitVec.ofNat 16 i).toNat ≠ 0) :
    countUp byte fuel n = some (n + BitVec.ofNat 16 d) := by
  induction d generalizing fuel n with
  | zero =>
      obtain ⟨fuel, rfl⟩ : ∃ k, fuel = k + 1 := ⟨fuel - 1, by omega⟩
      have hsame : n + BitVec.ofNat 16 0 = n := BitVec.add_zero n
      rw [hsame] at hnul ⊢
      rw [countUp, if_neg (not_not.mpr hnul)]
  | succ d ih =>
      obtain ⟨fuel, rfl⟩ : ∃ k, fuel = k + 1 := ⟨fuel - 1, by omega⟩
      have hshift : ∀ i, n + 1 + BitVec.ofNat 16 i = n + BitVec.ofNat 16 (i + 1) := by
        intro i
        rw [BitVec.ofNat_add, BitVec.add_assoc, BitVec.add_comm 1]
        rfl
      have hfirst := hne 0 (Nat.succ_pos d)
      rw [BitVec.add_zero] at hfirst
      rw [countUp, if_pos hfirst, ih (by omega) (by rwa [hshift])
        fun i hi => by rw [hshift]; exact hne (i + 1) (by omega), hshift]

/-- **The count ends** at a NUL that is not before the end of the string, and at its end when it
starts within it. -/
theorem exists_countUp {msg : List (BitVec 8)} (behind : ℕ → BitVec 8) (msgSize : BitVec 16)
    (hmsg : ∀ chr ∈ msg, chr ≠ 0) (hlen : msg.length < 2 ^ 16) :
    ∃ n, countUp (byteAt msg behind) (2 ^ 16) msgSize = some n ∧ msg.length ≤ n.toNat ∧
      (msgSize.toNat ≤ msg.length → n.toNat = msg.length) := by
  -- the end of the string is not farther away than the variable has values
  have hend : (msgSize + BitVec.ofNat 16 ((msg.length + 2 ^ 16 - msgSize.toNat) % 2 ^ 16)).toNat =
      msg.length := by
    have hlt := msgSize.isLt
    rw [BitVec.toNat_add, BitVec.toNat_ofNat]
    omega
  have hnul : byteAt msg behind msg.length = 0 := by
    unfold byteAt
    rw [if_neg (Nat.lt_irrefl _), if_pos rfl]
  have hletter : ∀ i < msg.length, byteAt msg behind i ≠ 0 := by
    intro i hi
    unfold byteAt
    rw [if_pos hi, List.getD_eq_getElem?_getD, List.getElem?_eq_getElem hi, Option.getD_some]
    exact hmsg _ (List.getElem_mem hi)
  have hex : ∃ d, byteAt msg behind (msgSize + BitVec.ofNat 16 d).toNat = 0 :=
    ⟨_, (congrArg _ hend).trans hnul⟩
  have hnear : Nat.find hex ≤ (msg.length + 2 ^ 16 - msgSize.toNat) % 2 ^ 16 :=
    Nat.find_min' hex ((congrArg _ hend).trans hnul)
  have hpast : msg.length ≤ (msgSize + BitVec.ofNat 16 (Nat.find hex)).toNat := by
    by_contra hlt
    exact hletter _ (Nat.not_le.mp hlt) (Nat.find_spec hex)
  refine ⟨_, countUp_eq (Nat.lt_of_le_of_lt hnear (Nat.mod_lt _ (by omega))) (Nat.find_spec hex)
    fun i hi => Nat.find_min hex hi, hpast, fun hstart => ?_⟩
  have hdistance : (msg.length + 2 ^ 16 - msgSize.toNat) % 2 ^ 16 = msg.length - msgSize.toNat := by
    omega
  rw [hdistance] at hnear
  rw [BitVec.toNat_add, BitVec.toNat_ofNat] at hpast ⊢
  omega

/-! ## The panic screen -/

/-- `KERNEL PANIC`. -/
def panicTitle : List (BitVec 8) :=
  [0x4b, 0x45, 0x52, 0x4e, 0x45, 0x4c, 0x20, 0x50, 0x41, 0x4e, 0x49, 0x43]

/-- `clear_color` is set to green. -/
def green (t : Target) : Target := { t with clearColor := 0x0000ff00 }

theorem targetFramebuffer_green (t : Target) :
    (green t).targetFramebuffer = t.targetFramebuffer := rfl

/-- The rest of `panic`, with the final `msg_size`. -/
def drawPanic (msgSize : BitVec 16) (msg : List (BitVec 8)) (t : Target) (r : BasicRenderer) :
    BasicRenderer :=
  let t := green t
  let width := t.targetFramebuffer.width
  let height := t.targetFramebuffer.height
  let r := (clear t r).withCursor ⟨(width / 2 - 52).toNat, (height / 2 - 16).toNat⟩
  let r := print t panicTitle r
  let r := r.withCursor
    ⟨(width / 2 - msgSize.setWidth 32 * 8 / 2).toNat, toLong (r.cursorPosition.y + 32)⟩
  print t msg r

/-- `panic`, with what `msg_size` holds at first and what is behind the message. -/
def panic (msgSize : BitVec 16) (behind : ℕ → BitVec 8) (msg : List (BitVec 8)) (t : Target)
    (r : BasicRenderer) : Option BasicRenderer :=
  (countUp (byteAt msg behind) (2 ^ 16) msgSize).map fun msgSize => drawPanic (msgSize + 1) msg t r

section Panic

variable {t : Target} {str : List (BitVec 8)} {x : ℕ}

/-- A string that is printed within a line, from a pixel that the cursor is put to. -/
theorem pixels_print_within (y₀ x₀ y : ℕ) (hstr : ∀ chr ∈ str, chr ≠ 0)
    (hpps : t.targetFramebuffer.width.toNat ≤ t.targetFramebuffer.pixelsPerScanline.toNat)
    (hfits : x₀ + 8 * str.length ≤ t.targetFramebuffer.width.toNat) (hrows : y₀ + 16 < 2 ^ 32)
    (hx : x < t.targetFramebuffer.width.toNat) (r : BasicRenderer) :
    (LitText t str y₀ x₀ y x → (print t str (r.withCursor ⟨x₀, y₀⟩)).pixels
        (x + y * t.targetFramebuffer.pixelsPerScanline.toNat) = t.color) ∧
      (¬ LitText t str y₀ x₀ y x → (print t str (r.withCursor ⟨x₀, y₀⟩)).pixels
        (x + y * t.targetFramebuffer.pixelsPerScanline.toNat) =
          r.pixels (x + y * t.targetFramebuffer.pixelsPerScanline.toNat)) := by
  have hiff := prints_iff_litText (y := y) hstr hpps hfits hrows hx
  obtain ⟨hlit, hkept⟩ := pixels_print (t := t)
    (j := x + y * t.targetFramebuffer.pixelsPerScanline.toNat) str (r.withCursor ⟨x₀, y₀⟩)
  exact ⟨fun h => hlit (hiff.mpr h), fun h => hkept fun hprints => h (hiff.mp hprints)⟩

/-- **The screen is green** but for the title and the message, in the color, when the length of the
message is taken to be `n`. -/
def PanicScreen (t : Target) (msg : List (BitVec 8)) (n : ℕ) (r : BasicRenderer) : Prop :=
  ∀ y < t.targetFramebuffer.height.toNat, ∀ x < t.targetFramebuffer.width.toNat,
    (LitText t panicTitle (t.targetFramebuffer.height.toNat / 2 - 16)
          (t.targetFramebuffer.width.toNat / 2 - 52) y x ∨
        LitText t msg (t.targetFramebuffer.height.toNat / 2 + 16)
          (t.targetFramebuffer.width.toNat / 2 - 4 * (n + 1)) y x →
      r.pixels (x + y * t.targetFramebuffer.pixelsPerScanline.toNat) = t.color) ∧
    (¬ (LitText t panicTitle (t.targetFramebuffer.height.toNat / 2 - 16)
          (t.targetFramebuffer.width.toNat / 2 - 52) y x ∨
        LitText t msg (t.targetFramebuffer.height.toNat / 2 + 16)
          (t.targetFramebuffer.width.toNat / 2 - 4 * (n + 1)) y x) →
      r.pixels (x + y * t.targetFramebuffer.pixelsPerScanline.toNat) = 0x0000ff00)

/-- The offsets of the title and of the message. -/
theorem panic_offsets {width height : BitVec 32} {n : BitVec 16} (hwidth : 104 ≤ width.toNat)
    (hheight : 32 ≤ height.toNat) (hfits : 8 * (n.toNat + 1) ≤ width.toNat)
    (hn : n.toNat + 1 < 2 ^ 16) :
    (width / 2 - 52).toNat = width.toNat / 2 - 52 ∧
      (height / 2 - 16).toNat = height.toNat / 2 - 16 ∧
      (width / 2 - (n + 1).setWidth 32 * 8 / 2).toNat = width.toNat / 2 - 4 * (n.toNat + 1) := by
  have hw : (width / 2).toNat = width.toNat / 2 := BitVec.toNat_udiv
  have hh : (height / 2).toNat = height.toNat / 2 := BitVec.toNat_udiv
  have hsize : ((n + 1).setWidth 32 * 8).toNat = 8 * (n.toNat + 1) := by bv_omega
  have hhalf : ((n + 1).setWidth 32 * 8 / 2).toNat = 4 * (n.toNat + 1) := by
    rw [BitVec.toNat_udiv, hsize]
    show 8 * (n.toNat + 1) / 2 = _
    omega
  generalize width / 2 = w at hw ⊢
  generalize height / 2 = h at hh ⊢
  generalize (n + 1).setWidth 32 * 8 / 2 = left at hhalf ⊢
  refine ⟨?_, ?_, ?_⟩ <;> bv_omega

/-- The cursor at the title and at the message, when the message fits in a line. -/
theorem drawPanic_eq {n : BitVec 16} (hwidth : 104 ≤ t.targetFramebuffer.width.toNat)
    (hheight : 32 ≤ t.targetFramebuffer.height.toNat)
    (hfits : 8 * (n.toNat + 1) ≤ t.targetFramebuffer.width.toNat) (hn : n.toNat + 1 < 2 ^ 16)
    (msg : List (BitVec 8)) (r : BasicRenderer) :
    drawPanic (n + 1) msg t r = print (green t) msg
      ((print (green t) panicTitle ((clear (green t) r).withCursor
        ⟨(t.targetFramebuffer.width.toNat / 2 - 52 : ℕ),
          (t.targetFramebuffer.height.toNat / 2 - 16 : ℕ)⟩)).withCursor
        ⟨(t.targetFramebuffer.width.toNat / 2 - 4 * (n.toNat + 1) : ℕ),
          (t.targetFramebuffer.height.toNat / 2 + 16 : ℕ)⟩) := by
  obtain ⟨hx₁, hy₁, hx₂⟩ := panic_offsets hwidth hheight hfits hn
  have hheight' := t.targetFramebuffer.height.isLt
  -- the title does not get to the end of the line
  have hcursor : (print (green t) panicTitle ((clear (green t) r).withCursor
      ⟨(t.targetFramebuffer.width.toNat / 2 - 52 : ℕ),
        (t.targetFramebuffer.height.toNat / 2 - 16 : ℕ)⟩)).cursorPosition.y =
      (t.targetFramebuffer.height.toNat / 2 - 16 : ℕ) := by
    have hstrlen : strlen panicTitle = 12 := rfl
    rw [cursor_print, cursorPosition_withCursor, hstrlen, iterate_nextCell_line (t := green t)
      (by dsimp only; omega) (by dsimp only; omega) (by dsimp only; omega)
      (by dsimp only [green]; omega)]
  have hfeed : toLong ((t.targetFramebuffer.height.toNat / 2 - 16 : ℕ) + 32) =
      (t.targetFramebuffer.height.toNat / 2 + 16 : ℕ) := by
    rw [toLong_of_lt (by omega) (by omega)]
    omega
  unfold drawPanic
  dsimp only
  rw [targetFramebuffer_green, hx₁, hy₁, hx₂, hcursor, hfeed]

/-- **The panic screen.**  Whatever the renderer has been doing, whatever `msg_size` holds at
first and whatever is behind the message, `panic` returns.  The count that it takes the length
from ends at the end of the message when it starts within it, and never before.  Unless that is
more than fits in a line, the screen is green but for the title and the message; each byte that is
counted too much moves the message four columns to the left. -/
theorem panic_shown (t : Target) (r : BasicRenderer) (msgSize : BitVec 16)
    (behind : ℕ → BitVec 8) (msg : List (BitVec 8)) (hmsg : ∀ chr ∈ msg, chr ≠ 0)
    (hlen : msg.length < 2 ^ 16) (hwidth : 104 ≤ t.targetFramebuffer.width.toNat)
    (hheight : 32 ≤ t.targetFramebuffer.height.toNat)
    (hheight' : t.targetFramebuffer.height.toNat < 2 ^ 31)
    (hpps : t.targetFramebuffer.width.toNat ≤ t.targetFramebuffer.pixelsPerScanline.toNat)
    (hpps' : t.targetFramebuffer.pixelsPerScanline.toNat < 2 ^ 30) :
    ∃ n r', panic msgSize behind msg t r = some r' ∧ msg.length ≤ n ∧
      (msgSize.toNat ≤ msg.length → n = msg.length) ∧
      (8 * (n + 1) ≤ t.targetFramebuffer.width.toNat → n + 1 < 2 ^ 16 →
        PanicScreen t msg n r') := by
  obtain ⟨n, hcount, hpast, hexact⟩ := exists_countUp behind msgSize hmsg hlen
  refine ⟨n.toNat, drawPanic (n + 1) msg t r, by rw [panic, hcount]; rfl, hpast, hexact,
    fun hfits hn y hy x hx => ?_⟩
  have hgreen := pixels_clear (t := green t) hheight' hpps' r hy (Nat.lt_of_lt_of_le hx hpps)
  obtain ⟨htitle, hnotTitle⟩ := pixels_print_within (t := green t)
    (t.targetFramebuffer.height.toNat / 2 - 16) (t.targetFramebuffer.width.toNat / 2 - 52) y
    (show ∀ chr ∈ panicTitle, chr ≠ 0 by decide) hpps
    (show _ + 8 * 12 ≤ t.targetFramebuffer.width.toNat by omega) (by omega) hx (clear (green t) r)
  obtain ⟨hmessage, hnotMessage⟩ := pixels_print_within (t := green t)
    (t.targetFramebuffer.height.toNat / 2 + 16)
    (t.targetFramebuffer.width.toNat / 2 - 4 * (n.toNat + 1)) y hmsg hpps
    (show _ ≤ t.targetFramebuffer.width.toNat by omega) (by omega) hx
    (print (green t) panicTitle ((clear (green t) r).withCursor
      ⟨(t.targetFramebuffer.width.toNat / 2 - 52 : ℕ),
        (t.targetFramebuffer.height.toNat / 2 - 16 : ℕ)⟩))
  rw [drawPanic_eq hwidth hheight hfits hn]
  constructor
  · intro hlit
    by_cases h : LitText t msg (t.targetFramebuffer.height.toNat / 2 + 16)
        (t.targetFramebuffer.width.toNat / 2 - 4 * (n.toNat + 1)) y x
    · exact hmessage h
    · exact (hnotMessage h).trans (htitle (hlit.resolve_right h))
  · intro hunlit
    rw [not_or] at hunlit
    exact (hnotMessage hunlit.2).trans ((hnotTitle hunlit.1).trans hgreen)

/-- A message of one character on a screen of 640 by 480 pixels, with a count that starts at 0. -/
theorem panic_shown_one : ∃ r', panic 0 (fun _ => 0) [0x41] (screen 640 480) (init fun _ => 0) =
    some r' ∧ PanicScreen (screen 640 480) [0x41] 1 r' := by
  obtain ⟨n, r', hpanic, -, hexact, hscreen⟩ := panic_shown (screen 640 480) (init fun _ => 0) 0
    (fun _ => 0) [0x41] (by decide) (by decide) (by decide) (by decide) (by decide) (by decide)
    (by decide)
  obtain rfl : n = 1 := hexact (by decide)
  exact ⟨r', hpanic, hscreen (by decide) (by decide)⟩

end Panic

end BasicRenderer

end EtaOs
