import EtaOs.Library.Numerals
import Mathlib.Data.BitVec
import Mathlib.Logic.Function.Basic

/-!
# The buffers of the conversions to strings

Each conversion writes into a static buffer of 128 bytes and returns it.  The bytes are numbered
from the start of the buffer, those in front of it with negative numbers.

A buffer with negative indices is not what C calls an array, and that is the point: the loops of
the conversions run past both ends of it, and a model whose buffer begins at zero could not say
where those writes go.  The record of indices tells which bytes a conversion has touched, and the
bytes are a function on the integers, so no write is lost and none faults.

`IsString` is what a caller sees of the result: the characters up to the first zero.  It is stated
for a pointer into the buffer, as `to_hstring` does not return its start.

* `Output`: the bytes and a record of the indices written; `put`, the assignment.
* `IsString`: the string that starts in a buffer.
* `isString_map_iff`: a string of digits.
-/

namespace EtaOs

/-- The bytes from a buffer on, and the indices written. -/
structure Output where
  buf : ℤ → BitVec 8
  writes : List ℤ

/-- `output[index] = c`. -/
def Output.put (o : Output) (index : ℤ) (c : BitVec 8) : Output :=
  ⟨Function.update o.buf index c, index :: o.writes⟩

namespace Output

variable {o : Output} {i j : ℤ} {c : BitVec 8}

@[simp] theorem buf_put_self (o : Output) (i : ℤ) (c : BitVec 8) : (o.put i c).buf i = c :=
  Function.update_self _ _ _

theorem buf_put_of_ne (h : j ≠ i) : (o.put i c).buf j = o.buf j := Function.update_of_ne h _ _

@[simp] theorem mem_writes_put : j ∈ (o.put i c).writes ↔ j = i ∨ j ∈ o.writes := List.mem_cons

end Output

/-- **The string that starts in a buffer**: its characters, none of them NUL, and NUL. -/
structure IsString (buf : ℤ → BitVec 8) (s : List (BitVec 8)) : Prop where
  ne_nul : ∀ c ∈ s, c ≠ 0
  buf_eq : ∀ i ≤ s.length, buf i = s.getD i 0

section

variable {buf buf' : ℤ → BitVec 8} {s : List (BitVec 8)} {c : BitVec 8}

theorem IsString.buf_length (h : IsString buf s) : buf s.length = 0 := by
  rw [h.buf_eq s.length (Nat.le_refl _)]
  exact List.getD_eq_default _ _ (Nat.le_refl _)

/-- A string depends on its own bytes. -/
theorem IsString.congr (h : IsString buf s) (heq : ∀ i : ℕ, i ≤ s.length → buf' i = buf i) :
    IsString buf' s := ⟨h.ne_nul, fun i hi => (heq i hi).trans (h.buf_eq i hi)⟩

/-- A string with a character in front. -/
theorem IsString.cons (h : IsString (fun i => buf (1 + i)) s) (hc : c ≠ 0) (hbuf : buf 0 = c) :
    IsString buf (c :: s) where
  ne_nul := List.forall_mem_cons.mpr ⟨hc, h.ne_nul⟩
  buf_eq := by
    intro i hi
    cases i with
    | zero => exact hbuf
    | succ i =>
        have hnext := h.buf_eq i (Nat.le_of_succ_le_succ hi)
        rwa [add_comm] at hnext

/-- **A string of digits.** -/
theorem isString_map {ds : List ℕ} {char : ℕ → BitVec 8} (hchar : ∀ d ∈ ds, char d ≠ 0)
    (hbuf : ∀ i < ds.length, buf i = char (ds.getD i 0)) (hend : buf ds.length = 0) :
    IsString buf (ds.map char) where
  ne_nul := by
    intro c hc
    obtain ⟨d, hd, rfl⟩ := List.mem_map.mp hc
    exact hchar d hd
  buf_eq := by
    intro i hi
    rw [List.length_map] at hi
    rcases Nat.lt_or_eq_of_le hi with hlt | rfl
    · rw [hbuf i hlt, List.getD_eq_getElem _ _ hlt,
        List.getD_eq_getElem _ _ (by rwa [List.length_map]), List.getElem_map]
    · rw [hend, List.getD_eq_default _ _ (by rw [List.length_map])]

end

end EtaOs
