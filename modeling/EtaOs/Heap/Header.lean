import EtaOs.Heap.Model

/-!
# Reading headers behind stores

The four fields of a header are read together.  A store to one field changes that field of
its own header and no header apart from it.

Headers are linked through memory, and a store to one of them could in principle change any other.
The lemmas of this module are the only place where that is ruled out; behind it, a store to a field
is an update of one record.

* `Header`, `header`: the contents of a header.
* `header_congr`: a header depends on its own 32 bytes.
* `header_setNext_self` and its siblings: a store to a field, seen from its own header.
* `sameOn_setNext` and its siblings: the same store is not seen on bytes apart from its header.
* `header_setNext` and its siblings: nor from a header apart from it.
* `mapPages_spec`, `growLoop_eq`: mapping pages is not seen below them.
-/

namespace EtaOs

open ByteMemory HeapSegHeader

/-- The fields of a segment header. -/
@[ext] structure Header where
  length : BitVec 64
  next : Addr
  last : Addr
  free : Bool

/-- The header at an address. -/
def header (m : Mem) (seg : Addr) : Header :=
  ⟨HeapSegHeader.length m seg, HeapSegHeader.next m seg, HeapSegHeader.last m seg,
    HeapSegHeader.free m seg⟩

theorem length_eq (m : Mem) (seg : Addr) : HeapSegHeader.length m seg = (header m seg).length := rfl

theorem next_eq (m : Mem) (seg : Addr) : HeapSegHeader.next m seg = (header m seg).next := rfl

theorem last_eq (m : Mem) (seg : Addr) : HeapSegHeader.last m seg = (header m seg).last := rfl

theorem free_eq (m : Mem) (seg : Addr) : HeapSegHeader.free m seg = (header m seg).free := rfl

variable {m m' : Mem} {a b : Addr}

/-- The flag depends on its own byte only. -/
theorem free_congr (h : m' (a + 24) = m (a + 24)) :
    HeapSegHeader.free m' a = HeapSegHeader.free m a := by
  unfold HeapSegHeader.free
  rw [h]

/-- **Frame rule.**  A header depends on its own bytes only. -/
theorem header_congr (h : SameOn a 32 m m') : header m' a = header m a := by
  have hword : ∀ k : ℕ, k + 8 ≤ 32 →
      load64 m' (a + BitVec.ofNat 64 k) = load64 m (a + BitVec.ofNat 64 k) := by
    intro k hk
    exact load64_congr (h.mono (by bv_omega))
  have hfree : m' (a + 24) = m (a + 24) := h _ (by bv_omega)
  ext1
  · have h0 := hword 0 (by decide)
    rwa [BitVec.add_zero] at h0
  · exact hword 8 (by decide)
  · exact hword 16 (by decide)
  · rw [← free_eq, free_congr hfree, free_eq]

/-! ## Stores to the fields of a header -/

/-- Two words of the same header that are not the same word share no byte. -/
theorem apart_offset {i j : Addr} (h : i.toNat + 8 ≤ j.toNat ∨ j.toNat + 8 ≤ i.toNat)
    (hi : i.toNat ≤ 24) (hj : j.toNat ≤ 24) : Apart (a + i) 8 (a + j) 8 := by
  constructor <;> bv_omega

/-- The flag of a header is a byte of its own, behind the three words. -/
theorem apart_flag {i : Addr} (hi : i.toNat ≤ 16) : Apart (a + i) 8 (a + 24) 1 := by
  constructor <;> bv_omega

theorem header_setLength_self (m : Mem) (a : Addr) (v : BitVec 64) :
    header (setLength m a v) a = { header m a with length := v } := by
  have h8 : Apart a 8 (a + 8) 8 := by
    constructor <;> bv_omega
  have h16 : Apart a 8 (a + 16) 8 := by
    constructor <;> bv_omega
  have h24 : Apart a 8 (a + 24) 1 := by
    constructor <;> bv_omega
  have hfree : setLength m a v (a + 24) = m (a + 24) := sameOn_store64 v h24 (a + 24) (by simp)
  ext1
  · exact load64_store64 m a v
  · exact load64_store64_of_apart v h8
  · exact load64_store64_of_apart v h16
  · rw [← free_eq, free_congr hfree, free_eq]

theorem header_setNext_self (m : Mem) (a v : Addr) :
    header (setNext m a v) a = { header m a with next := v } := by
  have h0 : Apart (a + 8) 8 a 8 := by
    constructor <;> bv_omega
  have hfree : setNext m a v (a + 24) = m (a + 24) :=
    sameOn_store64 v (apart_flag (by decide)) (a + 24) (by simp)
  ext1
  · exact load64_store64_of_apart v h0
  · exact load64_store64 m (a + 8) v
  · exact load64_store64_of_apart v (apart_offset (by decide) (by decide) (by decide))
  · rw [← free_eq, free_congr hfree, free_eq]

theorem header_setLast_self (m : Mem) (a v : Addr) :
    header (setLast m a v) a = { header m a with last := v } := by
  have h0 : Apart (a + 16) 8 a 8 := by
    constructor <;> bv_omega
  have hfree : setLast m a v (a + 24) = m (a + 24) :=
    sameOn_store64 v (apart_flag (by decide)) (a + 24) (by simp)
  ext1
  · exact load64_store64_of_apart v h0
  · exact load64_store64_of_apart v (apart_offset (by decide) (by decide) (by decide))
  · exact load64_store64 m (a + 16) v
  · rw [← free_eq, free_congr hfree, free_eq]

theorem header_setFree_self (m : Mem) (a : Addr) (v : Bool) :
    header (setFree m a v) a = { header m a with free := v } := by
  have h0 : Apart (a + 24) 1 a 8 := by
    constructor <;> bv_omega
  have hword : ∀ k : Addr, k.toNat ≤ 16 →
      load64 (setFree m a v) (a + k) = load64 m (a + k) := by
    intro k hk
    exact load64_congr (sameOn_store8 _ (apart_flag hk).symm)
  ext1
  · exact load64_congr (sameOn_store8 _ h0)
  · exact hword 8 (by decide)
  · exact hword 16 (by decide)
  · rw [← free_eq]
    unfold HeapSegHeader.free setFree store8
    rw [if_pos rfl]
    cases v <;> rfl

/-! ## Stores seen from a header apart from them -/

/-- The field of a header at offset `i` shares no byte with a range apart from the header. -/
theorem apart_field {i : Addr} {j k : ℕ} (h : Apart a 32 b k) (hi : i.toNat + j ≤ 32)
    (hj : 0 < j) : Apart (a + i) j b k := by
  obtain ⟨h1, h2⟩ := h
  constructor <;> bv_omega

theorem sameOn_setLength {k : ℕ} (h : Apart a 32 b k) (v : BitVec 64) :
    SameOn b k m (setLength m a v) :=
  sameOn_store64 v ⟨Nat.le_trans (by decide) h.1, h.2⟩

theorem sameOn_setNext {k : ℕ} (h : Apart a 32 b k) (v : Addr) : SameOn b k m (setNext m a v) :=
  sameOn_store64 v (apart_field h (by decide) (by decide))

theorem sameOn_setFree {k : ℕ} (h : Apart a 32 b k) (v : Bool) : SameOn b k m (setFree m a v) :=
  sameOn_store8 _ (apart_field h (by decide) (by decide))

theorem apart_lastField {k : ℕ} (h : Apart a 32 b k) : Apart (a + 16) 8 b k :=
  apart_field h (by decide) (by decide)

/-- Only the bytes of the field matter here: a store through a null `next` has no header. -/
theorem sameOn_setLast {k : ℕ} (h : Apart (a + 16) 8 b k) (v : Addr) :
    SameOn b k m (setLast m a v) :=
  sameOn_store64 v h

theorem header_setLength (h : Apart a 32 b 32) (v : BitVec 64) :
    header (setLength m a v) b = header m b :=
  header_congr (sameOn_setLength h v)

theorem header_setNext (h : Apart a 32 b 32) (v : Addr) :
    header (setNext m a v) b = header m b :=
  header_congr (sameOn_setNext h v)

theorem header_setLast (h : Apart (a + 16) 8 b 32) (v : Addr) :
    header (setLast m a v) b = header m b :=
  header_congr (sameOn_setLast h v)

theorem header_setFree (h : Apart a 32 b 32) (v : Bool) :
    header (setFree m a v) b = header m b :=
  header_congr (sameOn_setFree h v)

/-! ## Mapping pages -/

/-- The start of the page of an address. -/
def pageStart (a : Addr) : ℕ := a.toNat / 4096 * 4096

theorem pageStart_mono (h : a.toNat ≤ b.toNat) : pageStart a ≤ pageStart b :=
  Nat.mul_le_mul_right 4096 (Nat.div_le_div_right h)

theorem pageStart_le (a : Addr) : pageStart a ≤ a.toNat := Nat.div_mul_le_self a.toNat 4096

theorem page_eq_iff {x pos : Addr} :
    x.extractLsb' 12 52 = pos.extractLsb' 12 52 ↔ x.toNat / 4096 = pos.toNat / 4096 := by
  rw [← BitVec.toNat_inj, BitVec.extractLsb'_toNat, BitVec.extractLsb'_toNat,
    Nat.shiftRight_eq_div_pow, Nat.shiftRight_eq_div_pow]
  omega

/-- An address below a page does not see it mapped. -/
theorem mapPage_mem_of_lt {h : Heap} {x pos : Addr} (hx : x.toNat < pageStart pos) :
    (h.mapPage pos).mem x = h.mem x := by
  refine if_neg ?_
  rw [page_eq_iff]
  unfold pageStart at hx
  omega

/-- Mapping pages leaves memory below them and the globals alone. -/
theorem mapPages_spec : ∀ (n : ℕ) (pos : Addr) (h : Heap), pos.toNat + 4096 * n < 2 ^ 64 →
    (∀ x : Addr, x.toNat < pageStart pos → (mapPages n pos h).mem x = h.mem x) ∧
      (mapPages n pos h).heapStart = h.heapStart ∧ (mapPages n pos h).heapEnd = h.heapEnd ∧
      (mapPages n pos h).lastHeader = h.lastHeader := by
  intro n
  induction n with
  | zero =>
      intro _ _ _
      exact ⟨fun _ _ => rfl, rfl, rfl, rfl⟩
  | succ n ih =>
      intro pos h hfit
      have hnext : (pos + 4096).toNat = pos.toNat + 4096 := by bv_omega
      rw [mapPages]
      obtain ⟨hmem, hglobals⟩ := ih (pos + 4096) (h.mapPage pos) (by omega)
      refine ⟨fun x hx => ?_, hglobals⟩
      have hx' : x.toNat < pageStart (pos + 4096) :=
        lt_of_lt_of_le hx (pageStart_mono (by omega))
      rw [hmem x hx', mapPage_mem_of_lt hx]

/-- The loop of `extend_heap` maps the pages behind the heap and moves `heap_end` over
them. -/
theorem growLoop_eq : ∀ (n : ℕ) (h : Heap),
    growLoop n h = { mapPages n h.heapEnd h with
      heapEnd := h.heapEnd + 4096 * BitVec.ofNat 64 n } := by
  intro n
  induction n with
  | zero =>
      intro h
      exact by simp [growLoop, mapPages]
  | succ n ih =>
      intro h
      have hstep : ∀ (k : ℕ) (pos v : Addr) (g : Heap),
          mapPages k pos { g with heapEnd := v } = { mapPages k pos g with heapEnd := v } := by
        intro k
        induction k with
        | zero => intro pos v g; rfl
        | succ k ihk =>
            intro pos v g
            exact ihk (pos + 4096) v (g.mapPage pos)
      have hend : h.heapEnd + 0x1000 + 4096 * BitVec.ofNat 64 n =
          h.heapEnd + 4096 * BitVec.ofNat 64 (n + 1) := by bv_omega
      rw [growLoop, ih, hstep, mapPages, hend]

end EtaOs
