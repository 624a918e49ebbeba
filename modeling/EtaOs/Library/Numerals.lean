import Mathlib.Data.List.GetD
import Mathlib.Data.Nat.Digits.Lemmas
import Mathlib.Tactic.Common

/-!
# Numerals in a base

A numeral is a list of digits, the most significant one first.

Digits are natural numbers here, and how they are written is a function that a user brings along.
Canonical numerals are unique, so a conversion is right when it writes one of the number it was
given, and there is nothing else it could have written.

* `value`: the number read from digits.
* `digitsOf`: the last digits of a number, a given number of them; `getD_digitsOf`,
  `value_digitsOf`, each digit, and the number read back.
* `IsNumeral`: the canonical numerals of a number, without leading zeros.
* `numeral`: the canonical numeral; `isNumeral_iff`, it is the only one.
-/

namespace Numerals

variable {b k n : ℕ} {ds : List ℕ}

/-- The number read from digits. -/
def value (b : ℕ) (ds : List ℕ) : ℕ := Nat.ofDigits b ds.reverse

/-- The last `k` digits of a number. -/
def digitsOf (b k n : ℕ) : List ℕ := ((List.range k).map fun i => n / b ^ i % b).reverse

/-- **A canonical numeral of a number**: its digits are digits of the base, the first one is not
zero unless it is the only one, and it reads back as the number. -/
structure IsNumeral (b : ℕ) (ds : List ℕ) (n : ℕ) : Prop where
  ne_nil : ds ≠ []
  digit_lt : ∀ d ∈ ds, d < b
  head_ne : 1 < ds.length → ds.head? ≠ some 0
  value_eq : value b ds = n

/-- The canonical numeral. -/
def numeral (b n : ℕ) : List ℕ := digitsOf b (Nat.log b n + 1) n

/-! ## The last digits -/

@[simp] theorem length_digitsOf (b k n : ℕ) : (digitsOf b k n).length = k := by
  rw [digitsOf, List.length_reverse, List.length_map, List.length_range]

/-- **Each digit.** -/
theorem getD_digitsOf {p : ℕ} (hp : p < k) :
    (digitsOf b k n).getD p 0 = n / b ^ (k - 1 - p) % b := by
  have hlt : k - 1 - p < ((List.range k).map fun i => n / b ^ i % b).length := by
    rw [List.length_map, List.length_range]
    omega
  rw [digitsOf, List.getD_eq_getElem?_getD, List.getElem?_reverse (by simpa using hp),
    List.length_map, List.length_range, List.getElem?_eq_getElem hlt, List.getElem_map,
    List.getElem_range, Option.getD_some]

theorem digitsOf_lt (hb : 0 < b) : ∀ d ∈ digitsOf b k n, d < b := by
  intro d hd
  obtain ⟨i, -, rfl⟩ := List.mem_map.mp (List.mem_reverse.mp hd)
  exact Nat.mod_lt _ hb

/-- **The digits read back.** -/
theorem value_digitsOf (b k n : ℕ) : value b (digitsOf b k n) = n % b ^ k := by
  rw [value, digitsOf, List.reverse_reverse]
  induction k with
  | zero => exact (Nat.mod_one n).symm
  | succ k ih =>
      rw [List.range_succ, List.map_append, Nat.ofDigits_append, ih, List.length_map,
        List.length_range, Nat.mod_pow_succ, List.map_singleton, Nat.ofDigits_singleton]

/-! ## The canonical numeral -/

theorem numeral_zero (b : ℕ) : numeral b 0 = [0] := by
  rw [numeral, Nat.log_zero_right, digitsOf]
  simp

/-- The numeral of a positive number has its digits. -/
theorem numeral_of_ne_zero (hb : 1 < b) (hn : n ≠ 0) : numeral b n = (Nat.digits b n).reverse := by
  rw [numeral, digitsOf]
  congr 1
  refine List.ext_getElem ?_ fun i hi hi' => ?_
  · rw [List.length_map, List.length_range, Nat.length_digits b n hb hn]
  · rw [List.getElem_map, List.getElem_range, ← Nat.getD_digits n i hb,
      List.getD_eq_getElem _ _ hi']

/-- The numeral is canonical. -/
theorem isNumeral_numeral (hb : 1 < b) (n : ℕ) : IsNumeral b (numeral b n) n where
  ne_nil := by
    rw [numeral, ← List.length_pos_iff, length_digitsOf]
    exact Nat.succ_pos _
  digit_lt := digitsOf_lt (by omega)
  head_ne := by
    intro hlen
    rcases eq_or_ne n 0 with rfl | hn
    · rw [numeral_zero] at hlen
      exact absurd hlen (Nat.lt_irrefl 1)
    · rw [numeral_of_ne_zero hb hn, List.head?_reverse,
        List.getLast?_eq_getLast_of_ne_nil (Nat.digits_ne_nil_iff_ne_zero.mpr hn)]
      exact fun h => Nat.getLast_digit_ne_zero b hn (Option.some.inj h)
  value_eq := by
    rcases eq_or_ne n 0 with rfl | hn
    · rw [numeral_zero]
      rfl
    · rw [numeral_of_ne_zero hb hn, value, List.reverse_reverse, Nat.ofDigits_digits]

/-- **The canonical numeral is the only one.** -/
theorem isNumeral_iff (hb : 1 < b) : IsNumeral b ds n ↔ ds = numeral b n := by
  constructor
  · rintro ⟨hne, hlt, hhead, rfl⟩
    by_cases hzero : ds.head? = some 0
    · obtain ⟨ds, rfl⟩ := List.head?_eq_some_iff.mp hzero
      obtain rfl : ds = [] := by
        by_contra hds
        have hlen := List.length_pos_iff.mpr hds
        exact hhead (by rw [List.length_cons]; omega) hzero
      exact (numeral_zero b).symm
    · have hdigits : Nat.digits b (value b ds) = ds.reverse := by
        refine Nat.digits_ofDigits b hb _ (fun d hd => hlt d (List.mem_reverse.mp hd)) ?_
        intro hne' hlast
        rw [List.getLast_reverse] at hlast
        exact hzero (by rw [List.head?_eq_some_head hne, hlast])
      have hn : value b ds ≠ 0 := by
        rw [← Nat.digits_ne_nil_iff_ne_zero (b := b), hdigits]
        exact List.reverse_ne_nil_iff.mpr hne
      rw [numeral_of_ne_zero hb hn, hdigits, List.reverse_reverse]
  · rintro rfl
    exact isNumeral_numeral hb n

end Numerals
