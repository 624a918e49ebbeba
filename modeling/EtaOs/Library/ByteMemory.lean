import Mathlib.Data.BitVec

/-!
# Byte-addressed memory

A memory is a function from 64-bit addresses to bytes.  Words are read and
written little-endian, at any address, and every address computation wraps at
`2 ^ 64`, as pointer arithmetic on a flat 64-bit machine does.

* `store8`: one byte; `load16`, `load32`: two and four bytes from an address on, as one word.
* `load64`, `store64`: the eight bytes from an address on, as one word.
* `storeWord`: the low bytes of a word; `store16`, `store32`.
* `fill`: a constant written over a range.
* `Apart`: two byte ranges of the address circle that share no byte.
* `SameOn`: two memories that agree on a range.

The frame rules (`load64_store64_of_apart`, `sameOn_store64`, `sameOn_fill`) say
that a store is not seen outside its own bytes.

Nothing faults here: which addresses may be accessed is for a model built on top to say.  What the
library is for is the opposite question, whether two accesses can have to do with one another, and
`Apart` answers it on the circle of addresses, so that no range has to be shown not to wrap.
-/

namespace ByteMemory

/-- An address of the flat 64-bit memory. -/
abbrev Addr := BitVec 64

/-- A memory: one byte at every address. -/
abbrev Mem := Addr → BitVec 8

/-- The memory after a store of the byte `v` at `a`. -/
def store8 (m : Mem) (a : Addr) (v : BitVec 8) : Mem := fun x => if x = a then v else m x

/-- The little-endian word stored in the eight bytes from `a` on. -/
def load64 (m : Mem) (a : Addr) : BitVec 64 :=
  m (a + 7) ++ m (a + 6) ++ m (a + 5) ++ m (a + 4) ++
    m (a + 3) ++ m (a + 2) ++ m (a + 1) ++ m a

/-- The little-endian half word in the two bytes from `a` on. -/
def load16 (m : Mem) (a : Addr) : BitVec 16 := m (a + 1) ++ m a

/-- The little-endian word in the four bytes from `a` on. -/
def load32 (m : Mem) (a : Addr) : BitVec 32 := load16 m (a + 2) ++ load16 m a

/-- The memory after a little-endian store of `v` in the eight bytes from `a` on. -/
def store64 (m : Mem) (a : Addr) (v : BitVec 64) : Mem := fun x =>
  if (x - a).toNat < 8 then v.extractLsb' (8 * (x - a).toNat) 8 else m x

/-- The memory after a little-endian store of the `n` low bytes of `v` from `a` on. -/
def storeWord (n : ℕ) {w : ℕ} (m : Mem) (a : Addr) (v : BitVec w) : Mem := fun x =>
  if (x - a).toNat < n then v.extractLsb' (8 * (x - a).toNat) 8 else m x

/-- The memory after a little-endian store of two bytes. -/
def store16 (m : Mem) (a : Addr) (v : BitVec 16) : Mem := storeWord 2 m a v

/-- The memory after a little-endian store of four bytes. -/
def store32 (m : Mem) (a : Addr) (v : BitVec 32) : Mem := storeWord 4 m a v

/-- The memory after `n` bytes from `a` on are set to `v`. -/
def fill (m : Mem) (a : Addr) (n : ℕ) (v : BitVec 8) : Mem := fun x =>
  if (x - a).toNat < n then v else m x

/-- The range of `n` bytes at `a` and the range of `k` bytes at `b` share no byte. -/
def Apart (a : Addr) (n : ℕ) (b : Addr) (k : ℕ) : Prop :=
  n ≤ (b - a).toNat ∧ k ≤ (a - b).toNat

/-- Two memories agree on the `n` bytes from `a` on. -/
def SameOn (a : Addr) (n : ℕ) (m m' : Mem) : Prop :=
  ∀ x, (x - a).toNat < n → m' x = m x

/-! ## Ranges -/

theorem Apart.symm {a b : Addr} {n k : ℕ} (h : Apart a n b k) : Apart b k a n :=
  ⟨h.2, h.1⟩

/-- Ranges that follow one another without wrapping are apart. -/
theorem apart_of_le {a b : Addr} {n k : ℕ} (h0 : 0 < n) (hn : a.toNat + n ≤ b.toNat)
    (hk : b.toNat + k ≤ a.toNat + 2 ^ 64) : Apart a n b k := by
  constructor <;> bv_omega

/-- No byte of one range is a byte of a range apart from it. -/
theorem Apart.notMem {a b x : Addr} {n k : ℕ} (h : Apart a n b k) (hx : (x - b).toNat < k) :
    ¬ (x - a).toNat < n := by
  obtain ⟨h1, h2⟩ := h
  bv_omega

theorem Apart.mono {a b a' b' : Addr} {n k n' k' : ℕ} (h : Apart a n b k)
    (ha : (a' - a).toNat + n' ≤ n) (hb : (b' - b).toNat + k' ≤ k) (hn : 0 < n') (hk : 0 < k') :
    Apart a' n' b' k' := by
  obtain ⟨h1, h2⟩ := h
  constructor <;> bv_omega

theorem SameOn.refl (a : Addr) (n : ℕ) (m : Mem) : SameOn a n m m := fun _ _ => rfl

theorem SameOn.trans {a : Addr} {n : ℕ} {m₁ m₂ m₃ : Mem} (h : SameOn a n m₁ m₂)
    (h' : SameOn a n m₂ m₃) : SameOn a n m₁ m₃ := fun x hx => (h' x hx).trans (h x hx)

theorem SameOn.mono {a b : Addr} {n k : ℕ} {m m' : Mem} (h : SameOn a n m m')
    (hb : (b - a).toNat + k ≤ n) : SameOn b k m m' := by
  intro x hx
  refine h x ?_
  bv_omega

/-! ## Words -/

/-- Byte `i` of a word read from memory is the byte at offset `i`. -/
theorem extractLsb'_load64 (m : Mem) (a : Addr) {i : ℕ} (hi : i < 8) :
    (load64 m a).extractLsb' (8 * i) 8 = m (a + BitVec.ofNat 64 i) := by
  have hcases : i = 0 ∨ i = 1 ∨ i = 2 ∨ i = 3 ∨ i = 4 ∨ i = 5 ∨ i = 6 ∨ i = 7 := by omega
  apply BitVec.eq_of_getLsbD_eq
  intro j hj
  rcases hcases with rfl | rfl | rfl | rfl | rfl | rfl | rfl | rfl <;>
    simp only [load64, BitVec.getLsbD_extractLsb', BitVec.getLsbD_append, hj, decide_true,
      Bool.true_and, BitVec.add_zero] <;>
    grind

/-- Two words agree when their eight bytes do. -/
theorem eq_of_bytes_eq {v w : BitVec 64}
    (h : ∀ i < 8, v.extractLsb' (8 * i) 8 = w.extractLsb' (8 * i) 8) : v = w := by
  apply BitVec.eq_of_getLsbD_eq
  intro j hj
  have hb := congrArg (fun b => b.getLsbD (j % 8)) (h (j / 8) (by omega))
  have hj8 : j % 8 < 8 := Nat.mod_lt _ (by decide)
  simp only [BitVec.getLsbD_extractLsb', hj8, decide_true, Bool.true_and, Nat.div_add_mod] at hb
  exact hb

/-- A word depends on its own eight bytes only. -/
theorem load64_congr {m m' : Mem} {a : Addr} (h : SameOn a 8 m m') : load64 m' a = load64 m a := by
  apply eq_of_bytes_eq
  intro i hi
  rw [extractLsb'_load64 m' a hi, extractLsb'_load64 m a hi]
  refine h _ ?_
  bv_omega

/-- A word is read back as it was stored. -/
@[simp] theorem load64_store64 (m : Mem) (a : Addr) (v : BitVec 64) :
    load64 (store64 m a v) a = v := by
  apply eq_of_bytes_eq
  intro i hi
  have hoff : (a + BitVec.ofNat 64 i - a).toNat = i := by bv_omega
  rw [extractLsb'_load64 _ a hi]
  simp only [store64, hoff, hi, if_true]

/-! ## Frame rules -/

theorem sameOn_store64 {m : Mem} {a b : Addr} {k : ℕ} (v : BitVec 64) (h : Apart a 8 b k) :
    SameOn b k m (store64 m a v) := by
  intro x hx
  simp only [store64, h.notMem hx, if_false]

theorem sameOn_fill {m : Mem} {a b : Addr} {n k : ℕ} (v : BitVec 8) (h : Apart a n b k) :
    SameOn b k m (fill m a n v) := by
  intro x hx
  simp only [fill, h.notMem hx, if_false]

/-- A store inside a range leaves the bytes outside it. -/
theorem store64_outside {m : Mem} {a i x : Addr} {n : ℕ} (hi : i.toNat + 8 ≤ n)
    (hx : ¬ (x - a).toNat < n) (v : BitVec 64) : store64 m (a + i) v x = m x := by
  refine if_neg fun hlt => hx ?_
  bv_omega

theorem store8_outside {m : Mem} {a i x : Addr} {n : ℕ} (hi : i.toNat + 1 ≤ n)
    (hx : ¬ (x - a).toNat < n) (v : BitVec 8) : store8 m (a + i) v x = m x := by
  refine if_neg ?_
  rintro rfl
  exact hx (by bv_omega)

theorem sameOn_store8 {m : Mem} {a b : Addr} {k : ℕ} (v : BitVec 8) (h : Apart a 1 b k) :
    SameOn b k m (store8 m a v) := by
  intro x hx
  refine if_neg ?_
  rintro rfl
  exact h.notMem hx (by simp)

/-- A store is not seen by a load apart from it. -/
theorem load64_store64_of_apart {m : Mem} {a b : Addr} (v : BitVec 64) (h : Apart a 8 b 8) :
    load64 (store64 m a v) b = load64 m b :=
  load64_congr (sameOn_store64 v h)

/-! ## Fields of a record -/

section Fields

variable (m : Mem) (a : Addr) {n w i j : ℕ} (v : BitVec w)

theorem store8_eq_storeWord (b : BitVec 8) : store8 m a b = storeWord 1 m a b := by
  funext x
  have hiff : (x - a).toNat < 1 ↔ x = a := by
    constructor <;> intro h <;> bv_omega
  simp only [store8, storeWord, hiff]
  split
  next h =>
    subst h
    simp
  next => rfl

/-- One byte more. -/
theorem storeWord_succ (hn : n < 2 ^ 64) : storeWord (n + 1) m a v =
    store8 (storeWord n m a v) (a + BitVec.ofNat 64 n) (v.extractLsb' (8 * n) 8) := by
  funext x
  have hiff : x = a + BitVec.ofNat 64 n ↔ (x - a).toNat = n := by
    constructor <;> intro h <;> bv_omega
  simp only [storeWord, store8, hiff]
  rcases Nat.lt_trichotomy (x - a).toNat n with h | h | h
  · rw [if_pos (by omega), if_neg (by omega), if_pos h]
  · rw [if_pos (by omega), if_pos h, h]
  · rw [if_neg (by omega), if_neg (by omega), if_neg (by omega)]

theorem load16_offset (j : ℕ) : load16 m (a + BitVec.ofNat 64 j) =
    m (a + BitVec.ofNat 64 (j + 1)) ++ m (a + BitVec.ofNat 64 j) := by
  rw [load16, BitVec.add_assoc, BitVec.ofNat_add]
  rfl

theorem load32_offset (j : ℕ) : load32 m (a + BitVec.ofNat 64 j) =
    load16 m (a + BitVec.ofNat 64 (j + 2)) ++ load16 m (a + BitVec.ofNat 64 j) := by
  rw [load32, BitVec.add_assoc, BitVec.ofNat_add]
  rfl

/-- **A byte of a record** after a store to a field. -/
theorem storeWord_offset (hi : i + n < 2 ^ 63) (hj : j < 2 ^ 63) :
    storeWord n m (a + BitVec.ofNat 64 i) v (a + BitVec.ofNat 64 j) =
      if i ≤ j ∧ j < i + n then v.extractLsb' (8 * (j - i)) 8 else m (a + BitVec.ofNat 64 j) := by
  unfold storeWord
  by_cases h : i ≤ j ∧ j < i + n
  · have hoff : (a + BitVec.ofNat 64 j - (a + BitVec.ofNat 64 i)).toNat = j - i := by bv_omega
    rw [if_pos h, hoff, if_pos (by omega)]
  · rw [if_neg h, if_neg]
    bv_omega

/-- A store to a field leaves the bytes outside the record. -/
theorem storeWord_outside {x : Addr} {k : ℕ} (hn : i + n ≤ k) (hk : k < 2 ^ 63)
    (hx : k ≤ (x - a).toNat) : storeWord n m (a + BitVec.ofNat 64 i) v x = m x := by
  refine if_neg ?_
  bv_omega

/-- The bytes of a record outside the field stored to. -/
theorem storeWord_offset_of_apart (hi : i + n < 2 ^ 63) (hj : j < 2 ^ 63)
    (h : j < i ∨ i + n ≤ j) :
    storeWord n m (a + BitVec.ofNat 64 i) v (a + BitVec.ofNat 64 j) =
      m (a + BitVec.ofNat 64 j) := by
  rw [storeWord_offset m a v hi hj, if_neg (by omega)]

theorem load16_storeWord_of_apart (hi : i + n < 2 ^ 63) (hj : j + 2 < 2 ^ 63)
    (h : j + 2 ≤ i ∨ i + n ≤ j) :
    load16 (storeWord n m (a + BitVec.ofNat 64 i) v) (a + BitVec.ofNat 64 j) =
      load16 m (a + BitVec.ofNat 64 j) := by
  rw [load16_offset, load16_offset, storeWord_offset_of_apart m a v hi (by omega) (by omega),
    storeWord_offset_of_apart m a v hi (by omega) (by omega)]

theorem load32_storeWord_of_apart (hi : i + n < 2 ^ 63) (hj : j + 4 < 2 ^ 63)
    (h : j + 4 ≤ i ∨ i + n ≤ j) :
    load32 (storeWord n m (a + BitVec.ofNat 64 i) v) (a + BitVec.ofNat 64 j) =
      load32 m (a + BitVec.ofNat 64 j) := by
  rw [load32_offset, load32_offset, load16_storeWord_of_apart m a v hi (by omega) (by omega),
    load16_storeWord_of_apart m a v hi (by omega) (by omega)]

/-- Two bytes of a word, one after the other. -/
theorem extractLsb'_append (k : ℕ) :
    v.extractLsb' (8 * (k + 1)) 8 ++ v.extractLsb' (8 * k) 8 = v.extractLsb' (8 * k) 16 := by
  apply BitVec.eq_of_getLsbD_eq
  intro b hb
  rw [BitVec.getLsbD_append]
  simp only [BitVec.getLsbD_extractLsb']
  grind

/-- Two bytes of the word stored. -/
theorem load16_storeWord (hi : i + n < 2 ^ 63) (hij : i ≤ j) (hj : j + 2 ≤ i + n) :
    load16 (storeWord n m (a + BitVec.ofNat 64 i) v) (a + BitVec.ofNat 64 j) =
      v.extractLsb' (8 * (j - i)) 16 := by
  rw [load16_offset, storeWord_offset m a v hi (by omega), storeWord_offset m a v hi (by omega),
    if_pos (by omega), if_pos (by omega), Nat.succ_sub hij]
  exact extractLsb'_append v (j - i)

/-- **A field is read back as it was stored.** -/
theorem storeWord_self (hi : i + 1 < 2 ^ 63) (v : BitVec 8) :
    storeWord 1 m (a + BitVec.ofNat 64 i) v (a + BitVec.ofNat 64 i) = v := by
  rw [storeWord_offset m a v hi (by omega), if_pos (by omega), Nat.sub_self]
  simp

theorem load16_storeWord_self (hi : i + 2 < 2 ^ 63) (v : BitVec 16) :
    load16 (storeWord 2 m (a + BitVec.ofNat 64 i) v) (a + BitVec.ofNat 64 i) = v := by
  rw [load16_storeWord m a v hi (le_refl i) (le_refl _), Nat.sub_self]
  simp

theorem load32_storeWord_self (hi : i + 4 < 2 ^ 63) (v : BitVec 32) :
    load32 (storeWord 4 m (a + BitVec.ofNat 64 i) v) (a + BitVec.ofNat 64 i) = v := by
  rw [load32_offset, load16_storeWord m a v hi (by omega) (by omega),
    load16_storeWord m a v hi (by omega) (by omega), Nat.sub_self, Nat.add_sub_cancel_left]
  apply BitVec.eq_of_getLsbD_eq
  intro b hb
  rw [BitVec.getLsbD_append]
  simp only [BitVec.getLsbD_extractLsb']
  grind

end Fields

/-- A word inside a range filled with zeros is zero. -/
theorem load64_fill_zero {m : Mem} {a b : Addr} {n : ℕ} (h : (b - a).toNat + 8 ≤ n) :
    load64 (fill m a n 0) b = 0 := by
  have hz : ∀ i < 8, fill m a n 0 (b + BitVec.ofNat 64 i) = 0 := by
    intro i hi
    have hlt : (b + BitVec.ofNat 64 i - a).toNat < n := by bv_omega
    simp only [fill, hlt, if_true]
  apply eq_of_bytes_eq
  intro i hi
  rw [extractLsb'_load64 _ b hi, hz i hi]
  simp

end ByteMemory
