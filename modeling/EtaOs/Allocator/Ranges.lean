import EtaOs.Allocator.Init

/-!
# The range operations

`lock_pages`, `reserve_pages`, `free_pages` and `unreserve_pages` count with an `int` and
multiply it by 4096 before they add it to the address.  They cover exactly their range, and
every value they compute on the way fits its type, when the range is empty, or short enough
for that product, inside the address space, and the number of bits of the bitmap fits 64 bits.

The law asks for both, the frames and the values, because a loop may reach the right frames through
a product that does not fit.  Where the range is too long the product becomes negative, the address
wraps downwards, and the frames that are visited are others.

* `RangeOp`: the four operations, and the value each gives a bit.
* `InRange`: the values computed for one value of the loop counter fit their types.
* `CoversRange`: the law of a range operation.
* `coversRange_iff`: when it holds.
-/

namespace EtaOs

open ByteMemory IntLoop

/-- The operations on ranges of frames. -/
inductive RangeOp where
  | lock
  | reserve
  | free
  | unreserve
  deriving DecidableEq

namespace RangeOp

/-- The state after the operation. -/
def apply : RangeOp → Kernel → BitVec 64 → BitVec 64 → Kernel
  | lock => lockPages
  | reserve => reservePages
  | free => freePages
  | unreserve => unreservePages

/-- The value that the operation gives the bits of its range. -/
def value : RangeOp → Bool
  | lock => true
  | reserve => true
  | free => false
  | unreserve => false

end RangeOp

/-- A frame of the range of `pageCount` frames at `addr`. -/
def InPages (addr pageCount : BitVec 64) (k : ℕ) : Prop :=
  addr.toNat / 4096 ≤ k ∧ k < addr.toNat / 4096 + pageCount.toNat

instance (addr pageCount : BitVec 64) (k : ℕ) : Decidable (InPages addr pageCount k) :=
  inferInstanceAs (Decidable (_ ∧ _))

/-- **The values computed for the counter `i`**, each as it is without any bound, fit their
types: `i * 4096` and `i + 1` an `int`, the address of the frame and `size * 8` a `uint64_t`. -/
structure InRange (size addr : BitVec 64) (i : BitVec 32) : Prop where
  product : -2 ^ 31 ≤ i.toInt * 4096 ∧ i.toInt * 4096 < 2 ^ 31
  sum : 0 ≤ addr.toNat + i.toInt * 4096 ∧ addr.toNat + i.toInt * 4096 < 2 ^ 64
  bits : size.toNat * 8 < 2 ^ 64
  next : i.toInt + 1 < 2 ^ 31

/-- **The law of a range operation**: it gives the bits of its range their value, leaves the
other bits of the bitmap alone and all memory that holds no bit of the range, and computes no
value outside its type. -/
structure CoversRange (op : RangeOp) (s : Kernel) (addr pageCount : BitVec 64) : Prop where
  bits : ∀ k < 8 * s.alloc.pageBitmap.size.toNat, (op.apply s addr pageCount).marked k =
    if InPages addr pageCount k then op.value else s.marked k
  frame : ∀ x, (∀ k, InPages addr pageCount k → x ≠ s.alloc.pageBitmap.byteAddr k) →
    (op.apply s addr pageCount).mem x = s.mem x
  values : ∀ i, Iter pageCount i → InRange s.alloc.pageBitmap.size addr i

variable {op : RangeOp} {s : Kernel} {addr pageCount : BitVec 64}

/-! ## The operations on the marks of their loop -/

/-- The marks after an operation. -/
theorem RangeOp.marked_apply {k : ℕ} (hk : k ≤ s.last) [Decidable (LoopFrames addr pageCount k)] :
    (op.apply s addr pageCount).marked k =
      if LoopFrames addr pageCount k then op.value else s.marked k := by
  refine Bool.eq_iff_iff.mpr ?_
  cases op with
  | lock =>
      refine (marked_forPages_takePage hk).trans ?_
      by_cases hloop : LoopFrames addr pageCount k <;> simp [hloop, value]
  | reserve =>
      refine (marked_forPages_takePage hk).trans ?_
      by_cases hloop : LoopFrames addr pageCount k <;> simp [hloop, value]
  | free =>
      refine (marked_forPages_givePage hk).trans ?_
      by_cases hloop : LoopFrames addr pageCount k <;> simp [hloop, value]
  | unreserve =>
      refine (marked_forPages_givePage hk).trans ?_
      by_cases hloop : LoopFrames addr pageCount k <;> simp [hloop, value]

/-- Memory after an operation. -/
theorem RangeOp.apply_mem {x : BitVec 64}
    (hx : ∀ k ≤ s.last, LoopFrames addr pageCount k → x ≠ s.alloc.pageBitmap.byteAddr k) :
    (op.apply s addr pageCount).mem x = s.mem x := by
  cases op with
  | lock => exact forPages_mem (keeps_takePage .used) (fun _ _ => takePage_mem) hx
  | reserve => exact forPages_mem (keeps_takePage .reserved) (fun _ _ => takePage_mem) hx
  | free => exact forPages_mem (keeps_givePage .used) (fun _ _ => givePage_mem) hx
  | unreserve => exact forPages_mem (keeps_givePage .reserved) (fun _ _ => givePage_mem) hx

/-! ## The values computed -/

/-- A counter below `2 ^ 31` is not negative. -/
theorem toInt_of_lt {i : BitVec 32} (hi : i.toNat < 2 ^ 31) : i.toInt = i.toNat :=
  BitVec.toInt_eq_toNat_of_lt (by omega)

/-- **The values of a range that is short and inside the address space** fit their types. -/
theorem inRange_of_short (haligned : addr.toNat % 4096 = 0) (hshort : pageCount.toNat ≤ 2 ^ 19)
    (hspace : addr.toNat / 4096 + pageCount.toNat ≤ 2 ^ 52)
    (hsize : s.alloc.pageBitmap.size.toNat < 2 ^ 61) {i : BitVec 32} (hi : Iter pageCount i) :
    InRange s.alloc.pageBitmap.size addr i := by
  have hlt := hi.lt
  have hint := toInt_of_lt (i := i) (by omega)
  constructor <;> omega

/-- The first frame of a range that is not empty computes the number of bits. -/
theorem CoversRange.size_lt (h : CoversRange op s addr pageCount) (hpos : 0 < pageCount.toNat) :
    s.alloc.pageBitmap.size.toNat < 2 ^ 61 := by
  have hbits := (h.values 0 (iter_of_lt hpos (by decide))).bits
  omega

/-- From `2 ^ 19` on the product of the counter does not fit an `int`. -/
theorem CoversRange.short (h : CoversRange op s addr pageCount) : pageCount.toNat ≤ 2 ^ 19 := by
  by_contra hlong
  have hcounter : (0x80000 : BitVec 32).toNat = 2 ^ 19 := by decide
  have hproduct := (h.values 0x80000 (iter_of_lt (by omega) (by omega))).product
  exact absurd hproduct.2 (by decide)

/-- The address of the last frame fits 64 bits. -/
theorem CoversRange.space (h : CoversRange op s addr pageCount) (hpos : 0 < pageCount.toNat) :
    addr.toNat / 4096 + pageCount.toNat ≤ 2 ^ 52 := by
  have hshort := h.short
  have hlast : (BitVec.ofNat 32 (pageCount.toNat - 1)).toNat = pageCount.toNat - 1 := by
    rw [BitVec.toNat_ofNat]
    omega
  have hint := toInt_of_lt (i := BitVec.ofNat 32 (pageCount.toNat - 1)) (by omega)
  have hsum := (h.values (BitVec.ofNat 32 (pageCount.toNat - 1))
    (iter_of_lt (by omega) (by omega))).sum
  omega

/-! ## The law -/

/-- An empty range does nothing. -/
theorem coversRange_of_empty (hempty : pageCount.toNat = 0) : CoversRange op s addr pageCount := by
  have hiter : ∀ i, ¬ Iter pageCount i := fun i hi => by
    have hlt := hi.lt
    omega
  have hloop : ∀ k, ¬ LoopFrames addr pageCount k := fun k ⟨i, hi, _⟩ => hiter i hi
  have hnone : ∀ k, ¬ InPages addr pageCount k := fun k hk => by
    unfold InPages at hk
    omega
  have hsame : op.apply s addr pageCount = s := by
    cases op <;>
      exact forInt_induction (P := fun t : Kernel => t = s)
        (fun i t hi _ => absurd hi (hiter i)) rfl
  refine ⟨fun k _ => ?_, fun x _ => by rw [hsame], fun i hi => absurd hi (hiter i)⟩
  rw [hsame, if_neg (hnone k)]

/-- **When a range operation covers exactly its range.**  For a range of the bitmap on page
boundaries: when it is empty, or has at most `2 ^ 19` frames and lies inside the address space,
and the number of bits of the bitmap fits 64 bits. -/
theorem coversRange_iff (op : RangeOp) (s : Kernel) (addr pageCount : BitVec 64)
    (haligned : addr.toNat % 4096 = 0)
    (hinside : addr.toNat / 4096 + pageCount.toNat ≤ 8 * s.alloc.pageBitmap.size.toNat) :
    CoversRange op s addr pageCount ↔
      pageCount = 0 ∨ pageCount.toNat ≤ 2 ^ 19 ∧ addr.toNat / 4096 + pageCount.toNat ≤ 2 ^ 52 ∧
        s.alloc.pageBitmap.size.toNat < 2 ^ 61 := by
  constructor
  · intro h
    rcases Nat.eq_zero_or_pos pageCount.toNat with h0 | hpos
    · exact Or.inl (BitVec.eq_of_toNat_eq h0)
    · exact Or.inr ⟨h.short, h.space hpos, h.size_lt hpos⟩
  · rintro (rfl | ⟨hshort, hspace, hsize⟩)
    · exact coversRange_of_empty rfl
    · have hlast : s.last = 8 * s.alloc.pageBitmap.size.toNat := by
        unfold Machine.last Bitmap.last
        bv_omega
      have hloop : ∀ k, LoopFrames addr pageCount k ↔ InPages addr pageCount k := fun k =>
        loopFrames_iff hshort (by omega)
      classical
      refine ⟨fun k hk => ?_, fun x hx => ?_,
        fun i => inRange_of_short haligned hshort hspace hsize⟩
      · rw [op.marked_apply (by omega)]
        exact if_congr (hloop k) rfl rfl
      · exact op.apply_mem fun k _ hk => hx k ((hloop k).mp hk)

/-- A range of 300 frames that begins and ends inside a byte of a bitmap of 64 bytes. -/
theorem coversRange_frames : CoversRange .lock
    { bootKernel (fun _ => 0) with alloc := ⟨⟨64, 0x1000⟩, 0, 0, 0, 0, true, 0⟩ } 0x23000 300 :=
  (coversRange_iff .lock _ 0x23000 300 (by decide) (by decide)).mpr
    (Or.inr ⟨by decide, by decide, by decide⟩)

/-- A range of `2 ^ 19 + 1` frames at address `0` does not fit the product of the counter. -/
theorem not_coversRange_long : ¬ ∀ (op : RangeOp) (s : Kernel) (addr pageCount : BitVec 64),
    addr.toNat % 4096 = 0 →
    addr.toNat / 4096 + pageCount.toNat ≤ 8 * s.alloc.pageBitmap.size.toNat →
      CoversRange op s addr pageCount := by
  intro hall
  have h := hall .lock
    { bootKernel (fun _ => 0) with alloc := ⟨⟨0x20000, 0x1000⟩, 0, 0, 0, 0, true, 0⟩ } 0 0x80001
    (by decide) (by decide)
  exact absurd h.short (by decide)

end EtaOs
