import EtaOs.Library.ByteMemory

/-!
# The page bitmap

`Bitmap` of `bitmap.h`, on a byte memory: bit `index` of the bitmap is bit
`7 - index % 8` of byte `index / 8` of the buffer.  The bound check of both accessors
is `index > size * 8`, so the index `8 * size`, whose byte is the one after the
buffer, passes it.

The accessors are translated as they stand, with that check, and they are what the allocator
calls.  The rest of the development never looks at a byte again: every statement about the bitmap
is one about `Bitmap.marked`, the bit at an index with no bound, and the lemmas here say what a
call of an accessor reads and writes in terms of it.  A call that the check turns away reads
`false` and writes nothing, which is why the bound of an index appears in them.

* `Bitmap.get`, `Bitmap.set`: the accessors.
* `Bitmap.marked`: the bit itself, with no bound.
* `get_eq`, `set_of_le`, `set_of_gt`, `marked_set`, `set_frame`: what the accessors do in
  terms of it.
-/

namespace EtaOs

open ByteMemory

/-- `Bitmap`: `size` bytes at `buffer`. -/
structure Bitmap where
  size : BitVec 64
  buffer : BitVec 64
  deriving DecidableEq

namespace Bitmap

/-- The mask of one bit in its byte, `0b10000000 >> bit_index`. -/
def bitIndexer (index : BitVec 64) : BitVec 8 := 0b10000000#8 >>> (index % 8).toNat

/-- `Bitmap::operator[]`. -/
def get (b : Bitmap) (m : Mem) (index : BitVec 64) : Bool :=
  if index > b.size * 8 then false
  else
    let byteIndex := index / 8
    decide (m (b.buffer + byteIndex) &&& bitIndexer index > 0)

/-- `Bitmap::set`: whether the index was accepted, and the memory afterwards. -/
def set (b : Bitmap) (m : Mem) (index : BitVec 64) (value : Bool) : Bool × Mem :=
  if index > b.size * 8 then (false, m)
  else
    let byteIndex := index / 8
    let addr := b.buffer + byteIndex
    let m := store8 m addr (m addr &&& ~~~bitIndexer index)
    let m := if value then store8 m addr (m addr ||| bitIndexer index) else m
    (true, m)

/-- The last index that passes the bound check. -/
def last (b : Bitmap) : ℕ := (b.size * 8).toNat

/-- The address of the byte of bit `k`. -/
def byteAddr (b : Bitmap) (k : ℕ) : BitVec 64 := b.buffer + BitVec.ofNat 64 (k / 8)

/-- Bit `k` of the bitmap. -/
def marked (b : Bitmap) (m : Mem) (k : ℕ) : Bool := (m (b.byteAddr k)).getLsbD (7 - k % 8)

/-! ## One byte -/

theorem getLsbD_bitIndexer (index : BitVec 64) {j : ℕ} (hj : j < 8) :
    (bitIndexer index).getLsbD j = decide (j = 7 - index.toNat % 8) := by
  have hmod : (index % 8).toNat = index.toNat % 8 := by simp
  have hk : index.toNat % 8 < 8 := Nat.mod_lt _ (by decide)
  rw [bitIndexer, hmod, BitVec.getLsbD_ushiftRight]
  generalize index.toNat % 8 = k at hk
  revert j k
  decide

theorem and_bitIndexer_pos_iff (x : BitVec 8) (index : BitVec 64) :
    x &&& bitIndexer index > 0 ↔ x.getLsbD (7 - index.toNat % 8) = true := by
  have hk : 7 - index.toNat % 8 < 8 := by omega
  have hbit := getLsbD_bitIndexer index hk
  rw [decide_eq_true rfl] at hbit
  have hpos : x &&& bitIndexer index > 0 ↔ x &&& bitIndexer index ≠ 0 := by
    constructor <;> intro h <;> bv_omega
  rw [hpos]
  constructor
  · intro hne
    by_contra hx
    refine hne (BitVec.eq_of_getLsbD_eq fun j hj => ?_)
    rw [BitVec.getLsbD_and, getLsbD_bitIndexer index hj]
    by_cases hjk : j = 7 - index.toNat % 8
    · subst hjk
      simp only [Bool.not_eq_true] at hx
      rw [hx]
      simp
    · simp [hjk]
  · intro hx hzero
    have h := congrArg (fun y : BitVec 8 => y.getLsbD (7 - index.toNat % 8)) hzero
    simp only [BitVec.getLsbD_and, hx, hbit] at h
    simp at h

/-- The byte `set` leaves behind: one bit replaced. -/
theorem getLsbD_setByte (x : BitVec 8) (index : BitVec 64) (value : Bool) {j : ℕ} (hj : j < 8) :
    (if value then x &&& ~~~bitIndexer index ||| bitIndexer index
      else x &&& ~~~bitIndexer index).getLsbD j =
      if j = 7 - index.toNat % 8 then value else x.getLsbD j := by
  cases value <;>
    simp only [if_true, Bool.false_eq_true, if_false, BitVec.getLsbD_or, BitVec.getLsbD_and,
      BitVec.getLsbD_not, getLsbD_bitIndexer index hj] <;>
    by_cases hjk : j = 7 - index.toNat % 8 <;> simp [hj, hjk]

/-! ## The accessors -/

variable (b : Bitmap) (m : Mem) (index : BitVec 64)

theorem byteAddr_toNat : b.byteAddr index.toNat = b.buffer + index / 8 := by
  rw [byteAddr]
  congr 1
  apply BitVec.eq_of_toNat_eq
  have := index.isLt
  simp
  omega

theorem get_eq : b.get m index = (decide (index.toNat ≤ b.last) && b.marked m index.toNat) := by
  have hle : index > b.size * 8 ↔ ¬ index.toNat ≤ b.last := by
    rw [last, not_le]
    exact Iff.rfl
  rw [get, marked, byteAddr_toNat]
  by_cases h : index.toNat ≤ b.last
  · rw [if_neg (by rwa [hle, not_not]), decide_eq_true h, Bool.true_and]
    exact Bool.eq_iff_iff.mpr (by
      rw [decide_eq_true_iff]
      exact and_bitIndexer_pos_iff _ index)
  · rw [if_pos (hle.mpr h), decide_eq_false h, Bool.false_and]

theorem set_of_gt (value : Bool) (h : ¬ index.toNat ≤ b.last) :
    b.set m index value = (false, m) := by
  rw [set, if_pos]
  exact not_le.mp h

/-- An accepted `set` rewrites one byte. -/
theorem set_of_le (value : Bool) (h : index.toNat ≤ b.last) :
    b.set m index value = (true, store8 m (b.byteAddr index.toNat)
      (if value then m (b.byteAddr index.toNat) &&& ~~~bitIndexer index ||| bitIndexer index
        else m (b.byteAddr index.toNat) &&& ~~~bitIndexer index)) := by
  have hle : ¬ index > b.size * 8 := not_lt.mpr h
  rw [set, if_neg hle, byteAddr_toNat]
  cases value
  · rfl
  · simp only [if_true, Prod.mk.injEq, true_and]
    funext x
    simp only [store8]
    by_cases hx : x = b.buffer + index / 8
    · simp only [if_pos hx, if_true]
    · simp only [if_neg hx]

variable {b m index}

/-- **Accepted stores change their own bit only.** -/
theorem marked_set (value : Bool) (h : index.toNat ≤ b.last) {k : ℕ} (hk : k < 2 ^ 64) :
    b.marked (b.set m index value).2 k = if k = index.toNat then value else b.marked m k := by
  have hindex := index.isLt
  rw [set_of_le b m index value h, marked, marked]
  simp only [store8]
  by_cases hbyte : k / 8 = index.toNat / 8
  · have haddr : b.byteAddr k = b.byteAddr index.toNat := by rw [byteAddr, byteAddr, hbyte]
    rw [if_pos haddr, getLsbD_setByte _ _ _ (by omega), haddr]
    have hiff : 7 - k % 8 = 7 - index.toNat % 8 ↔ k = index.toNat := by omega
    simp only [hiff]
  · have haddr : b.byteAddr k ≠ b.byteAddr index.toNat := by
      intro heq
      have := BitVec.add_right_inj b.buffer |>.mp heq
      have := congrArg BitVec.toNat this
      simp only [BitVec.toNat_ofNat] at this
      omega
    rw [if_neg haddr, if_neg (by rintro rfl; exact hbyte rfl)]

/-- A store leaves the bytes of other bits alone. -/
theorem set_frame (value : Bool) {x : BitVec 64} (hx : x ≠ b.byteAddr index.toNat) :
    (b.set m index value).2 x = m x := by
  by_cases h : index.toNat ≤ b.last
  · rw [set_of_le b m index value h]
    exact if_neg hx
  · rw [set_of_gt b m index value h]

end Bitmap

end EtaOs
