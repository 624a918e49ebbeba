import Mathlib.Data.List.Infix
import Mathlib.Logic.Function.Basic

/-!
# A text terminal

The cells of a terminal are numbered in reading order.  A character is drawn over what the cell
at the cursor holds.  Going back erases the cell that the cursor comes to; from the very first
cell it comes to the last one of the first line.

How a cell looks is left open, and so is the way it is drawn: a device is a state in which cells
can be drawn and cleared.  Two devices that agree on single keys agree on everything that is typed.

* `Key`, `Screen`, `Device`: what is pressed, what is shown, and how it is drawn.
* `Device.press`, `Device.type`: one key, and a list of them.
* `corrected`: the keys without those that are taken back.
* `Device.type_corrected`: they leave the same screen, when there is nothing behind the cursor;
  `exists_prefix_of_corrected`, they come through no other screens on the way.
* `Written`, `written`: what is written in a cell; `Device.type_written`, a screen looks like it.
-/

namespace TextTerminal

variable {α β : Type*}

/-! ## Keys and screens -/

/-- A key. -/
inductive Key (α : Type*)
  | put (a : α)
  | back
  | newline
  deriving DecidableEq

/-- The cell of the cursor, and what the cells hold. -/
structure Screen (β : Type*) where
  cursor : ℕ
  cell : ℕ → β

/-- The number of cells in a line, how a character is drawn over what a cell holds, and what an
erased cell holds. -/
structure Device (α β : Type*) where
  cols : ℕ
  draw : α → β → β
  blank : β

namespace Device

variable (d : Device α β)

/-- The cell before. -/
def before (m : ℕ) : ℕ := if m = 0 then d.cols - 1 else m - 1

/-- One key. -/
def press (s : Screen β) : Key α → Screen β
  | .put a => ⟨s.cursor + 1, Function.update s.cell s.cursor (d.draw a (s.cell s.cursor))⟩
  | .back => ⟨d.before s.cursor, Function.update s.cell (d.before s.cursor) d.blank⟩
  | .newline => ⟨d.cols * (s.cursor / d.cols + 1), s.cell⟩

/-- A list of keys. -/
def type (keys : List (Key α)) (s : Screen β) : Screen β := keys.foldl d.press s

variable {d}

theorem type_append (keys keys' : List (Key α)) (s : Screen β) :
    d.type (keys ++ keys') s = d.type keys' (d.type keys s) := List.foldl_append

theorem type_concat (keys : List (Key α)) (k : Key α) (s : Screen β) :
    d.type (keys ++ [k]) s = d.press (d.type keys s) k := type_append keys [k] s

/-! ### Lines -/

/-- The cell before is not on a line below. -/
theorem line_before (d : Device α β) (m : ℕ) : d.before m / d.cols ≤ m / d.cols := by
  unfold before
  split
  next =>
    have hlast : (d.cols - 1) / d.cols = 0 := by
      rcases Nat.eq_zero_or_pos d.cols with hzero | hpos
      · rw [hzero, Nat.div_zero]
      · exact Nat.div_eq_of_lt (by omega)
    rw [hlast]
    exact Nat.zero_le _
  next => exact Nat.div_le_div_right (Nat.sub_le m 1)

/-- A key goes down one line at most. -/
theorem line_press (hcols : 0 < d.cols) (s : Screen β) (k : Key α) :
    (d.press s k).cursor / d.cols ≤ s.cursor / d.cols + 1 := by
  cases k with
  | put a =>
      show (s.cursor + 1) / d.cols ≤ _
      rw [← Nat.add_div_right s.cursor hcols]
      exact Nat.div_le_div_right (by omega)
  | back => exact Nat.le_succ_of_le (d.line_before s.cursor)
  | newline =>
      show d.cols * (s.cursor / d.cols + 1) / d.cols ≤ _
      rw [Nat.mul_div_cancel_left _ hcols]

theorem line_type (hcols : 0 < d.cols) (keys : List (Key α)) (s : Screen β) :
    (d.type keys s).cursor / d.cols ≤ s.cursor / d.cols + keys.length := by
  induction keys using List.reverseRecOn with
  | nil => exact le_refl _
  | append_singleton keys k ih =>
      have hline := line_press hcols (d.type keys s) k
      rw [type_concat, List.length_append, List.length_singleton]
      omega

end Device

/-! ## Keys that are taken back -/

/-- One more key, after keys of which the last comes first.  A character is taken back. -/
def amend : List (Key α) → Key α → List (Key α)
  | .put _ :: l, .back => l
  | l, k => k :: l

/-- **The keys without those that are taken back.** -/
def corrected (keys : List (Key α)) : List (Key α) := (keys.foldl amend []).reverse

theorem corrected_concat (keys : List (Key α)) (k : Key α) :
    corrected (keys ++ [k]) = (amend (corrected keys).reverse k).reverse := by
  unfold corrected
  rw [List.foldl_append, List.reverse_reverse]
  rfl

/-- A key is added, or takes back the character before it. -/
theorem amend_cases (l : List (Key α)) (k : Key α) :
    amend l k = k :: l ∨ ∃ a l', l = .put a :: l' ∧ k = .back ∧ amend l k = l' := by
  cases l with
  | nil => exact Or.inl rfl
  | cons k' l' =>
      cases k' with
      | put a =>
          cases k with
          | back => exact Or.inr ⟨a, l', rfl, rfl, rfl⟩
          | put b => exact Or.inl rfl
          | newline => exact Or.inl rfl
      | back => exact Or.inl rfl
      | newline => exact Or.inl rfl

/-- **The last key**: it is added to what is left of the others, or it takes the last of them
back. -/
theorem corrected_concat_cases (keys : List (Key α)) (k : Key α) :
    corrected (keys ++ [k]) = corrected keys ++ [k] ∨
      ∃ a, k = .back ∧ corrected keys = corrected (keys ++ [k]) ++ [.put a] := by
  rw [corrected_concat]
  rcases amend_cases (corrected keys).reverse k with h | ⟨a, l', hl, hk, h⟩
  · left
    rw [h, List.reverse_cons, List.reverse_reverse]
  · right
    refine ⟨a, hk, ?_⟩
    rw [h, ← List.reverse_cons, ← hl, List.reverse_reverse]

/-- What is left of the keys is left of some of the first of them, as far as one likes. -/
theorem exists_prefix_of_corrected {keys pre : List (Key α)} (h : pre <+: corrected keys) :
    ∃ pre', pre' <+: keys ∧ corrected pre' = pre := by
  induction keys using List.reverseRecOn with
  | nil => exact ⟨[], List.prefix_refl [], (List.prefix_nil.mp h).symm⟩
  | append_singleton keys k ih =>
      have hmore : ∀ pre', pre' <+: keys → pre' <+: keys ++ [k] :=
        fun pre' hpre' => hpre'.trans (List.prefix_append keys [k])
      rcases corrected_concat_cases keys k with hadd | ⟨a, hk, hback⟩
      · rw [hadd, List.prefix_concat_iff] at h
        rcases h with rfl | h
        · exact ⟨keys ++ [k], List.prefix_refl _, hadd⟩
        · obtain ⟨pre', hpre', heq⟩ := ih h
          exact ⟨pre', hmore pre' hpre', heq⟩
      · obtain ⟨pre', hpre', heq⟩ := ih (hback ▸ h.trans (List.prefix_append _ [Key.put a]))
        exact ⟨pre', hmore pre' hpre', heq⟩

section Corrected

variable {d : Device α β} {s : Screen β}

/-- From the cursor on all cells are erased. -/
def Device.BlankAhead (d : Device α β) (s : Screen β) : Prop :=
  ∀ m, s.cursor ≤ m → s.cell m = d.blank

/-- A key that does not go back leaves nothing behind the cursor. -/
theorem Device.BlankAhead.press (hcols : 0 < d.cols) (h : d.BlankAhead s) {k : Key α}
    (hk : k ≠ .back) : d.BlankAhead (d.press s k) := by
  intro m hm
  cases k with
  | put a =>
      have hlt : s.cursor < m := hm
      exact (Function.update_of_ne (by omega) _ _).trans (h m (by omega))
  | back => exact absurd rfl hk
  | newline =>
      have hline : d.cols * (s.cursor / d.cols + 1) ≤ m := hm
      have hlt := Nat.lt_mul_div_succ s.cursor hcols
      exact h m (by omega)

theorem Device.BlankAhead.type (hcols : 0 < d.cols) (h : d.BlankAhead s) {keys : List (Key α)}
    (hkeys : Key.back ∉ keys) : d.BlankAhead (d.type keys s) := by
  induction keys using List.reverseRecOn with
  | nil => exact h
  | append_singleton keys k ih =>
      rw [List.mem_append, List.mem_singleton, not_or] at hkeys
      rw [Device.type_concat]
      exact (ih hkeys.1).press hcols fun hk => hkeys.2 hk.symm

/-- **Taking a character back** restores the screen, when the cell was erased. -/
theorem Device.press_back (h : d.BlankAhead s) (a : α) :
    d.press (d.press s (.put a)) .back = s := by
  have hbefore : d.before (s.cursor + 1) = s.cursor := if_neg (Nat.succ_ne_zero s.cursor)
  have hcell : Function.update s.cell s.cursor d.blank = s.cell := by
    rw [← h s.cursor (le_refl _)]
    exact Function.update_eq_self s.cursor s.cell
  unfold Device.press
  dsimp only
  rw [hbefore, Function.update_idem, hcell]

/-- **Typing with corrections** leaves the screen of the corrected text, when nothing is behind
the cursor and nothing but characters is taken back. -/
theorem Device.type_corrected (hcols : 0 < d.cols) (h : d.BlankAhead s) {keys : List (Key α)}
    (hkeys : Key.back ∉ corrected keys) : d.type keys s = d.type (corrected keys) s := by
  induction keys using List.reverseRecOn with
  | nil => rfl
  | append_singleton keys k ih =>
      rcases corrected_concat_cases keys k with hadd | ⟨a, rfl, hback⟩
      · rw [hadd] at hkeys ⊢
        rw [Device.type_concat, Device.type_concat,
          ih fun hmem => hkeys (List.mem_append_left [k] hmem)]
      · have hmem : Key.back ∉ corrected keys := by
          rw [hback, List.mem_append, List.mem_singleton, not_or]
          exact ⟨hkeys, by simp⟩
        rw [Device.type_concat, ih hmem, hback, Device.type_concat]
        exact Device.press_back (h.type hcols hkeys) a

end Corrected

/-! ## What is written in a cell -/

/-- What is written in a cell: whether it has been erased, and the characters drawn since then
over one another, with the last one first. -/
structure Written (α : Type*) where
  erased : Bool
  chars : List α

/-- The terminal that keeps what is written. -/
def written (α : Type*) (cols : ℕ) : Device α (Written α) where
  cols := cols
  draw a w := ⟨w.erased, a :: w.chars⟩
  blank := ⟨true, []⟩

/-- Nothing is written yet. -/
def Screen.unwritten (m : ℕ) : Screen (Written α) := ⟨m, fun _ => ⟨false, []⟩⟩

/-- How a cell looks that looked like `b` before anything was written in it. -/
def Written.look (d : Device α β) (b : β) (w : Written α) : β :=
  w.chars.foldr d.draw (if w.erased then d.blank else b)

/-- **A screen looks like what is written on it.** -/
theorem Device.type_written (d : Device α β) (keys : List (Key α)) (s : Screen β) :
    (d.type keys s).cursor = ((written α d.cols).type keys (Screen.unwritten s.cursor)).cursor ∧
      ∀ m, (d.type keys s).cell m =
        (((written α d.cols).type keys (Screen.unwritten s.cursor)).cell m).look d (s.cell m) := by
  induction keys using List.reverseRecOn with
  | nil => exact ⟨rfl, fun _ => rfl⟩
  | append_singleton keys k ih =>
      obtain ⟨hcursor, hcell⟩ := ih
      rw [Device.type_concat, Device.type_concat]
      generalize (written α d.cols).type keys (Screen.unwritten s.cursor) = w at hcursor hcell
      generalize d.type keys s = v at hcursor hcell
      cases k with
      | put a =>
          refine ⟨congrArg (· + 1) hcursor, fun m => ?_⟩
          unfold Device.press
          dsimp only
          rw [hcursor]
          by_cases hm : m = w.cursor
          · subst hm
            rw [Function.update_self, Function.update_self, hcell]
            rfl
          · rw [Function.update_of_ne hm, Function.update_of_ne hm, hcell]
      | back =>
          refine ⟨congrArg d.before hcursor, fun m => ?_⟩
          have hbefore : (written α d.cols).before w.cursor = d.before w.cursor := rfl
          unfold Device.press
          dsimp only
          rw [hcursor, hbefore]
          by_cases hm : m = d.before w.cursor
          · rw [hm, Function.update_self, Function.update_self]
            rfl
          · rw [Function.update_of_ne hm, Function.update_of_ne hm, hcell]
      | newline => exact ⟨congrArg (fun n => d.cols * (n / d.cols + 1)) hcursor, hcell⟩

end TextTerminal
