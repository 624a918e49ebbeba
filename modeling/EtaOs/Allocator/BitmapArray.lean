import EtaOs.Allocator.Bitmap

/-!
# The bitmap as an array of booleans

A bitmap of `size` bytes should be an array of `8 * size` booleans.  The accessors are run
once more with a record of the addresses they load from and store to.  The index `8 * size`
passes their bound check, and where `size * 8` wraps the check turns indices away that the
buffer has room for; at every other index the bitmap is the array it should be.

The record is needed because the result of a call says nothing about where it looked: at index `8 *
size` the accessor answers from the byte behind the buffer, and gives a boolean all the same.

* `Access`, `getLogged`, `setLogged`: the accessors, with the record.
* `getLogged_run`, `setLogged_run`: they compute what the accessors compute.
* `ArrayLaw`, `arrayLaw_iff`: the law of the array at one index, and when it holds.
-/

namespace EtaOs

open ByteMemory

namespace Bitmap

/-- Programs on memory that record the addresses they access, the last one first. -/
abbrev Access := StateM (Mem × List Addr)

/-- A load of one byte. -/
def loadByte (x : Addr) : Access (BitVec 8) := fun s => (s.1 x, (s.1, x :: s.2))

/-- A store of one byte. -/
def storeByte (x : Addr) (v : BitVec 8) : Access Unit :=
  fun s => ((), (store8 s.1 x v, x :: s.2))

/-- `Bitmap::operator[]`. -/
def getLogged (b : Bitmap) (index : BitVec 64) : Access Bool := do
  if index > b.size * 8 then return false
  else
    let byteIndex := index / 8
    let byte ← loadByte (b.buffer + byteIndex)
    return decide (byte &&& bitIndexer index > 0)

/-- `Bitmap::set`.  Each compound assignment loads the byte it stores to. -/
def setLogged (b : Bitmap) (index : BitVec 64) (value : Bool) : Access Bool := do
  if index > b.size * 8 then return false
  else
    let byteIndex := index / 8
    let byte ← loadByte (b.buffer + byteIndex)
    storeByte (b.buffer + byteIndex) (byte &&& ~~~bitIndexer index)
    if value then
      let byte ← loadByte (b.buffer + byteIndex)
      storeByte (b.buffer + byteIndex) (byte ||| bitIndexer index)
    return true

/-- The addresses that a program accesses, from a memory on. -/
def accesses {α : Type} (x : Access α) (m : Mem) : List Addr := (x (m, [])).2.2

variable (b : Bitmap) (m : Mem) (index : BitVec 64)

/-- **The record changes nothing** in `operator[]`, which loads one byte at most. -/
theorem getLogged_run (log : List Addr) : b.getLogged index (m, log) =
    (b.get m index,
      (m, if index.toNat ≤ b.last then b.byteAddr index.toNat :: log else log)) := by
  rw [byteAddr_toNat]
  unfold getLogged get
  by_cases h : index > b.size * 8
  · have hout : ¬ index.toNat ≤ b.last := not_le.mpr h
    rw [if_pos h, if_pos h, if_neg hout]
    rfl
  · have hin : index.toNat ≤ b.last := not_lt.mp h
    rw [if_neg h, if_neg h, if_pos hin]
    rfl

/-- **The record changes nothing** in `set`, which accesses one byte only. -/
theorem setLogged_run (value : Bool) :
    (b.setLogged index value (m, [])).1 = (b.set m index value).1 ∧
      (b.setLogged index value (m, [])).2.1 = (b.set m index value).2 ∧
      ∀ x, x ∈ accesses (b.setLogged index value) m ↔
        index.toNat ≤ b.last ∧ x = b.byteAddr index.toNat := by
  rw [byteAddr_toNat]
  unfold accesses setLogged set
  by_cases h : index > b.size * 8
  · have hout : ¬ index.toNat ≤ b.last := not_le.mpr h
    rw [if_pos h, if_pos h]
    refine ⟨rfl, rfl, fun x => ?_⟩
    show x ∈ [] ↔ _
    simp [hout]
  · have hin : index.toNat ≤ b.last := not_lt.mp h
    rw [if_neg h, if_neg h]
    cases value with
    | false =>
        refine ⟨rfl, rfl, fun x => ?_⟩
        show x ∈ [b.buffer + index / 8, b.buffer + index / 8] ↔ _
        simp [hin]
    | true =>
        refine ⟨rfl, rfl, fun x => ?_⟩
        show x ∈ [b.buffer + index / 8, b.buffer + index / 8, b.buffer + index / 8,
          b.buffer + index / 8] ↔ _
        simp [hin]

/-! ## The law -/

/-- **The law of an array of `8 * size` booleans**, at one index: both accessors stay in the
buffer, `set` accepts the index exactly when it is one of the array, an accepted `set` is read
back and seen at no other index, and an index behind the array is refused. -/
structure ArrayLaw (value : Bool) : Prop where
  inside : ∀ x ∈ accesses (b.getLogged index) m ++ accesses (b.setLogged index value) m,
    (x - b.buffer).toNat < b.size.toNat
  accepted : (b.set m index value).1 = true ↔ index.toNat < 8 * b.size.toNat
  get_self : (b.set m index value).1 = true → b.get (b.set m index value).2 index = value
  get_other : (b.set m index value).1 = true →
    ∀ j ≠ index, b.get (b.set m index value).2 j = b.get m j
  refused : 8 * b.size.toNat ≤ index.toNat →
    b.set m index value = (false, m) ∧ b.get m index = false

variable {b m index}

/-- An accepted `set` is read back. -/
theorem get_set_self (value : Bool) (h : index.toNat ≤ b.last) :
    b.get (b.set m index value).2 index = value := by
  rw [get_eq, marked_set value h index.isLt, if_pos rfl, decide_eq_true h, Bool.true_and]

/-- No other index sees an accepted `set`. -/
theorem get_set_of_ne (value : Bool) (h : index.toNat ≤ b.last) {j : BitVec 64} (hj : j ≠ index) :
    b.get (b.set m index value).2 j = b.get m j := by
  have hne : j.toNat ≠ index.toNat := fun heq => hj (BitVec.eq_of_toNat_eq heq)
  rw [get_eq, get_eq, marked_set value h j.isLt, if_neg hne]

theorem set_fst (b : Bitmap) (m : Mem) (index : BitVec 64) (value : Bool) :
    (b.set m index value).1 = true ↔ index.toNat ≤ b.last := by
  by_cases h : index.toNat ≤ b.last
  · rw [set_of_le b m index value h]
    exact iff_of_true rfl h
  · rw [set_of_gt b m index value h]
    exact iff_of_false Bool.false_ne_true h

/-- Both accessors access the byte of an index that passes the bound check. -/
theorem mem_accesses (b : Bitmap) (m : Mem) (index : BitVec 64) (value : Bool) (x : Addr) :
    x ∈ accesses (b.getLogged index) m ++ accesses (b.setLogged index value) m ↔
      index.toNat ≤ b.last ∧ x = b.byteAddr index.toNat := by
  have hget : x ∈ accesses (b.getLogged index) m ↔
      index.toNat ≤ b.last ∧ x = b.byteAddr index.toNat := by
    unfold accesses
    rw [getLogged_run]
    by_cases h : index.toNat ≤ b.last <;> simp [h]
  rw [List.mem_append, hget, (setLogged_run b m index value).2.2 x, or_self_iff]

/-- The offset of the byte of an index. -/
theorem byteAddr_sub (b : Bitmap) (index : BitVec 64) :
    (b.byteAddr index.toNat - b.buffer).toNat = index.toNat / 8 := by
  have hlt := index.isLt
  unfold byteAddr
  bv_omega

/-- `size * 8` is the number of bits, where it does not wrap. -/
theorem last_eq_or (b : Bitmap) : b.last = 8 * b.size.toNat ∨ 2 ^ 64 ≤ 8 * b.size.toNat := by
  rw [last, BitVec.toNat_mul]
  show b.size.toNat * 8 % 2 ^ 64 = 8 * b.size.toNat ∨ 2 ^ 64 ≤ 8 * b.size.toNat
  omega

/-- **When the bitmap is an array of `8 * size` booleans.**  The law holds at every index but
`8 * size` and the indices of the array that the wrapped `size * 8` turns away. -/
theorem arrayLaw_iff (b : Bitmap) (m : Mem) (index : BitVec 64) (value : Bool) :
    ArrayLaw b m index value ↔
      index.toNat ≠ 8 * b.size.toNat ∧ (index.toNat < 8 * b.size.toNat → index ≤ b.size * 8) := by
  have hindex := index.isLt
  have hlast := b.last_eq_or
  constructor
  · intro h
    refine ⟨fun heq => ?_, fun hlt => ?_⟩
    · have hin : index.toNat ≤ b.last := by omega
      have hacc := h.inside _ ((mem_accesses b m index value _).mpr ⟨hin, rfl⟩)
      rw [byteAddr_sub] at hacc
      omega
    · exact (set_fst b m index value).mp (h.accepted.mpr hlt)
  · rintro ⟨hne, hpass⟩
    have hin : index.toNat ≤ b.last ↔ index.toNat < 8 * b.size.toNat := by
      constructor
      · intro hle
        omega
      · exact hpass
    refine ⟨fun x hx => ?_, ?_, fun hset => ?_, fun hset j hj => ?_, fun hge => ?_⟩
    · obtain ⟨hle, rfl⟩ := (mem_accesses b m index value x).mp hx
      rw [byteAddr_sub]
      omega
    · rw [set_fst, hin]
    · exact get_set_self value ((set_fst b m index value).mp hset)
    · exact get_set_of_ne value ((set_fst b m index value).mp hset) hj
    · have hout : ¬ index.toNat ≤ b.last := by omega
      refine ⟨set_of_gt b m index value hout, ?_⟩
      rw [get_eq, decide_eq_false hout, Bool.false_and]

/-- A bitmap of one byte accepts the index 8 and reads and writes the byte behind its buffer. -/
theorem not_arrayLaw_eight : ¬ ∀ (b : Bitmap) (m : Mem) (index : BitVec 64) (value : Bool),
    ArrayLaw b m index value := by
  intro hall
  have hlaw := hall ⟨1, 0x1000⟩ (fun _ => 0) 8 true
  have hin : (0x1001 : Addr) ∈
      accesses (getLogged ⟨1, 0x1000⟩ 8) (fun _ => 0) ++
        accesses (setLogged ⟨1, 0x1000⟩ 8 true) (fun _ => 0) :=
    (mem_accesses _ _ _ _ _).mpr ⟨by decide, by decide⟩
  exact absurd (hlaw.inside 0x1001 hin) (by decide)

end Bitmap

end EtaOs
