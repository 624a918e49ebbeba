import EtaOs.Allocator.Model

/-!
# What the allocator's operations do to the marks

Each operation is described by what it does to the bits of the bitmap, to the search
hint and to the counters.

The operations read and write bytes, book pages and move a hint, and each of them does so behind an
early return.  A proof about a run of operations should see none of this, so each operation has one
lemma here that says all it can do, and the lemmas about runs are case splits on that.

* `Machine.marked`, `Machine.last`, `frameIndex`: the bit of a frame, the last index
  the bound check lets through, the index of the frame an address lies in.
* `takePage_cases`, `givePage_cases`: everything one operation on one frame can do.
* `Keeps`: the bitmap header, the paging register and all memory outside the bitmap
  stay; every operation keeps them.
* `marked_takePage`, `marked_givePage` for one frame, and `marked_forPages_takePage`,
  `marked_forPages_givePage` for a range: the frames of `LoopFrames addr count` change.
* `requestPage_cases`: `request_page` takes the first unmarked frame from the hint on,
  or finds none among the first `size` frames.
-/

namespace EtaOs

open ByteMemory IntLoop

/-- The mark of frame `k`. -/
def Machine.marked (s : Kernel) (k : ℕ) : Bool := s.alloc.pageBitmap.marked s.mem k

/-- The last index the bound check of the bitmap lets through. -/
def Machine.last (s : Kernel) : ℕ := s.alloc.pageBitmap.last

/-- The index of the frame an address lies in. -/
def frameIndex (addr : BitVec 64) : ℕ := (addr / 4096).toNat

theorem frameIndex_eq (addr : BitVec 64) : frameIndex addr = addr.toNat / 4096 := by
  simp [frameIndex]

/-- The frames a range loop visits. -/
def LoopFrames (addr pageCount : BitVec 64) (k : ℕ) : Prop :=
  ∃ i, Iter pageCount i ∧ frameIndex (pageAt addr i) = k

/-! ## What is kept -/

/-- The state `s'` has the bitmap header, the paging state and the map data of `s`,
and its memory outside the bitmap. -/
structure Keeps (s s' : Kernel) : Prop where
  pageBitmap : s'.alloc.pageBitmap = s.alloc.pageBitmap
  cr3 : s'.cr3 = s.cr3
  requests : s'.requests = s.requests
  initialized : s'.alloc.initialized = s.alloc.initialized
  memSizeBytes : s'.alloc.memSizeBytes = s.alloc.memSizeBytes
  mem : ∀ x, (∀ k ≤ s.last, x ≠ s.alloc.pageBitmap.byteAddr k) → s'.mem x = s.mem x

namespace Keeps

theorem refl (s : Kernel) : Keeps s s := ⟨rfl, rfl, rfl, rfl, rfl, fun _ _ => rfl⟩

theorem trans {s₁ s₂ s₃ : Kernel} (h : Keeps s₁ s₂) (h' : Keeps s₂ s₃) : Keeps s₁ s₃ where
  pageBitmap := h'.pageBitmap.trans h.pageBitmap
  cr3 := h'.cr3.trans h.cr3
  requests := h'.requests.trans h.requests
  initialized := h'.initialized.trans h.initialized
  memSizeBytes := h'.memSizeBytes.trans h.memSizeBytes
  mem := by
    intro x hx
    refine (h'.mem x ?_).trans (h.mem x hx)
    intro k hk
    rw [h.pageBitmap]
    refine hx k ?_
    rwa [Machine.last, h.pageBitmap] at hk

theorem last {s s' : Kernel} (h : Keeps s s') : s'.last = s.last := by
  rw [Machine.last, h.pageBitmap]
  rfl

end Keeps

/-! ## One frame -/

/-- A kernel after an accepted store in its bitmap. -/
def Machine.setMark (s : Kernel) (addr : BitVec 64) (value : Bool) (a : PageFrameAllocator) :
    Kernel :=
  { s with mem := (s.alloc.pageBitmap.set s.mem (addr / 4096) value).2, alloc := a }

/-- Taking a frame: it was taken already or is out of range, and nothing happens; or it
is marked and booked. -/
theorem takePage_cases (account : Account) (s : Kernel) (addr : BitVec 64) :
    (s.last < frameIndex addr ∨ s.marked (frameIndex addr) = true) ∧ takePage account s addr = s ∨
    frameIndex addr ≤ s.last ∧ s.marked (frameIndex addr) = false ∧
      takePage account s addr = s.setMark addr true (s.alloc.take account) := by
  have hget := s.alloc.pageBitmap.get_eq s.mem (addr / 4096)
  rcases Nat.lt_or_ge s.last (frameIndex addr) with hlast | hlast
  · have hout : ¬ (addr / 4096).toNat ≤ s.alloc.pageBitmap.last := not_le.mpr hlast
    refine Or.inl ⟨Or.inl hlast, ?_⟩
    rw [decide_eq_false hout, Bool.false_and] at hget
    simp only [takePage, hget, Bitmap.set_of_gt _ _ _ true hout, beq_iff_eq, Bool.false_eq_true,
      if_false]
  · have hin : (addr / 4096).toNat ≤ s.alloc.pageBitmap.last := hlast
    rw [decide_eq_true hin, Bool.true_and] at hget
    cases hm : s.marked (frameIndex addr) with
    | true =>
        refine Or.inl ⟨Or.inr rfl, ?_⟩
        have hget' : s.alloc.pageBitmap.get s.mem (addr / 4096) = true := hget.trans hm
        simp only [takePage, hget', beq_self_eq_true, if_true]
    | false =>
        refine Or.inr ⟨hlast, rfl, ?_⟩
        have hget' : s.alloc.pageBitmap.get s.mem (addr / 4096) = false := hget.trans hm
        have hset : (s.alloc.pageBitmap.set s.mem (addr / 4096) true).1 = true := by
          rw [Bitmap.set_of_le _ _ _ true hin]
        simp only [takePage, hget', hset, beq_iff_eq, Bool.false_eq_true, if_false, if_true,
          Machine.setMark]

/-- Giving a frame back: it was free already or is out of range, and nothing happens;
or it is unmarked, booked, and the hint lowered to it. -/
theorem givePage_cases (account : Account) (s : Kernel) (addr : BitVec 64) :
    (s.last < frameIndex addr ∨ s.marked (frameIndex addr) = false) ∧ givePage account s addr = s ∨
    frameIndex addr ≤ s.last ∧ s.marked (frameIndex addr) = true ∧
      givePage account s addr =
        s.setMark addr false ((s.alloc.give account).lowerHint (addr / 4096)) := by
  have hget := s.alloc.pageBitmap.get_eq s.mem (addr / 4096)
  rcases Nat.lt_or_ge s.last (frameIndex addr) with hlast | hlast
  · have hout : ¬ (addr / 4096).toNat ≤ s.alloc.pageBitmap.last := not_le.mpr hlast
    refine Or.inl ⟨Or.inl hlast, ?_⟩
    rw [decide_eq_false hout, Bool.false_and] at hget
    simp only [givePage, hget, beq_self_eq_true, if_true]
  · have hin : (addr / 4096).toNat ≤ s.alloc.pageBitmap.last := hlast
    rw [decide_eq_true hin, Bool.true_and] at hget
    cases hm : s.marked (frameIndex addr) with
    | false =>
        refine Or.inl ⟨Or.inr rfl, ?_⟩
        have hget' : s.alloc.pageBitmap.get s.mem (addr / 4096) = false := hget.trans hm
        simp only [givePage, hget', beq_self_eq_true, if_true]
    | true =>
        refine Or.inr ⟨hlast, rfl, ?_⟩
        have hget' : s.alloc.pageBitmap.get s.mem (addr / 4096) = true := hget.trans hm
        have hset : (s.alloc.pageBitmap.set s.mem (addr / 4096) false).1 = true := by
          rw [Bitmap.set_of_le _ _ _ false hin]
        simp only [givePage, hget', hset, beq_iff_eq, Bool.true_eq_false, if_false, if_true,
          Machine.setMark]

namespace PageFrameAllocator

variable (a : PageFrameAllocator) (account : Account) (index : BitVec 64)

@[simp] theorem take_pageBitmap : (a.take account).pageBitmap = a.pageBitmap := by
  cases account <;> simp only [take]

@[simp] theorem take_pageBitmapIndex : (a.take account).pageBitmapIndex = a.pageBitmapIndex := by
  cases account <;> simp only [take]

@[simp] theorem take_initialized : (a.take account).initialized = a.initialized := by
  cases account <;> simp only [take]

@[simp] theorem take_memSizeBytes : (a.take account).memSizeBytes = a.memSizeBytes := by
  cases account <;> simp only [take]

@[simp] theorem give_pageBitmap : (a.give account).pageBitmap = a.pageBitmap := by
  cases account <;> simp only [give]

@[simp] theorem give_pageBitmapIndex : (a.give account).pageBitmapIndex = a.pageBitmapIndex := by
  cases account <;> simp only [give]

@[simp] theorem give_initialized : (a.give account).initialized = a.initialized := by
  cases account <;> simp only [give]

@[simp] theorem give_memSizeBytes : (a.give account).memSizeBytes = a.memSizeBytes := by
  cases account <;> simp only [give]

@[simp] theorem lowerHint_pageBitmap : (a.lowerHint index).pageBitmap = a.pageBitmap := by
  rw [lowerHint]; split <;> rfl

@[simp] theorem lowerHint_initialized : (a.lowerHint index).initialized = a.initialized := by
  rw [lowerHint]; split <;> rfl

@[simp] theorem lowerHint_memSizeBytes : (a.lowerHint index).memSizeBytes = a.memSizeBytes := by
  rw [lowerHint]; split <;> rfl

theorem lowerHint_pageBitmapIndex :
    (a.lowerHint index).pageBitmapIndex.toNat = min a.pageBitmapIndex.toNat index.toNat := by
  rw [lowerHint]
  split
  next h => exact (Nat.min_eq_right (Nat.le_of_lt h)).symm
  next h => exact (Nat.min_eq_left (Nat.le_of_not_lt h)).symm

end PageFrameAllocator

theorem Machine.marked_setMark {s : Kernel} {addr : BitVec 64} {value : Bool}
    {a : PageFrameAllocator} (ha : a.pageBitmap = s.alloc.pageBitmap)
    (h : frameIndex addr ≤ s.last) {k : ℕ} (hk : k < 2 ^ 64) :
    (s.setMark addr value a).marked k = if k = frameIndex addr then value else s.marked k := by
  rw [Machine.marked, setMark, ha]
  exact Bitmap.marked_set value h hk

theorem Keeps.setMark {s : Kernel} {addr : BitVec 64} {value : Bool} {a : PageFrameAllocator}
    (hb : a.pageBitmap = s.alloc.pageBitmap) (hi : a.initialized = s.alloc.initialized)
    (hm : a.memSizeBytes = s.alloc.memSizeBytes) (h : frameIndex addr ≤ s.last) :
    Keeps s (s.setMark addr value a) where
  pageBitmap := hb
  cr3 := rfl
  requests := rfl
  initialized := hi
  memSizeBytes := hm
  mem := fun _ hx => Bitmap.set_frame value (hx _ h)

theorem keeps_takePage (account : Account) (s : Kernel) (addr : BitVec 64) :
    Keeps s (takePage account s addr) := by
  rcases takePage_cases account s addr with ⟨-, h⟩ | ⟨hle, -, h⟩
  · rw [h]
    exact Keeps.refl s
  · rw [h]
    exact Keeps.setMark (by simp) (by simp) (by simp) hle

theorem keeps_givePage (account : Account) (s : Kernel) (addr : BitVec 64) :
    Keeps s (givePage account s addr) := by
  rcases givePage_cases account s addr with ⟨-, h⟩ | ⟨hle, -, h⟩
  · rw [h]
    exact Keeps.refl s
  · rw [h]
    exact Keeps.setMark (by simp) (by simp) (by simp) hle

/-- Taking a frame writes the byte of its mark only. -/
theorem takePage_mem {account : Account} {s : Kernel} {addr x : BitVec 64}
    (hx : frameIndex addr ≤ s.last → x ≠ s.alloc.pageBitmap.byteAddr (frameIndex addr)) :
    (takePage account s addr).mem x = s.mem x := by
  rcases takePage_cases account s addr with ⟨-, h⟩ | ⟨hle, -, h⟩
  · rw [h]
  · rw [h]
    exact Bitmap.set_frame true (hx hle)

/-- Giving a frame back writes the byte of its mark only. -/
theorem givePage_mem {account : Account} {s : Kernel} {addr x : BitVec 64}
    (hx : frameIndex addr ≤ s.last → x ≠ s.alloc.pageBitmap.byteAddr (frameIndex addr)) :
    (givePage account s addr).mem x = s.mem x := by
  rcases givePage_cases account s addr with ⟨-, h⟩ | ⟨hle, -, h⟩
  · rw [h]
  · rw [h]
    exact Bitmap.set_frame false (hx hle)

theorem takePage_pageBitmapIndex (account : Account) (s : Kernel) (addr : BitVec 64) :
    (takePage account s addr).alloc.pageBitmapIndex = s.alloc.pageBitmapIndex := by
  rcases takePage_cases account s addr with ⟨-, h⟩ | ⟨-, -, h⟩
  · rw [h]
  · rw [h]
    exact PageFrameAllocator.take_pageBitmapIndex s.alloc account

/-- Giving a frame back does not raise the hint. -/
theorem givePage_pageBitmapIndex (account : Account) (s : Kernel) (addr : BitVec 64) :
    (givePage account s addr).alloc.pageBitmapIndex.toNat ≤ s.alloc.pageBitmapIndex.toNat := by
  rcases givePage_cases account s addr with ⟨-, h⟩ | ⟨-, -, h⟩
  · rw [h]
  · rw [h]
    refine (PageFrameAllocator.lowerHint_pageBitmapIndex _ _).le.trans ?_
    rw [PageFrameAllocator.give_pageBitmapIndex]
    exact Nat.min_le_left _ _

theorem marked_takePage {account : Account} {s : Kernel} {addr : BitVec 64} {k : ℕ}
    (hk : k ≤ s.last) :
    (takePage account s addr).marked k = true ↔ s.marked k = true ∨ frameIndex addr = k := by
  have hk64 : k < 2 ^ 64 := lt_of_le_of_lt hk (s.alloc.pageBitmap.size * 8).isLt
  rcases takePage_cases account s addr with ⟨hno, h⟩ | ⟨hle, -, h⟩
  · rw [h]
    refine ⟨Or.inl, ?_⟩
    rintro (hm | rfl)
    · exact hm
    · exact hno.resolve_left (by omega)
  · rw [h, Machine.marked_setMark (by simp) hle hk64]
    by_cases hkf : k = frameIndex addr
    · simp [hkf]
    · simp [hkf, Ne.symm hkf]

theorem marked_givePage {account : Account} {s : Kernel} {addr : BitVec 64} {k : ℕ}
    (hk : k ≤ s.last) :
    (givePage account s addr).marked k = true ↔ s.marked k = true ∧ frameIndex addr ≠ k := by
  have hk64 : k < 2 ^ 64 := lt_of_le_of_lt hk (s.alloc.pageBitmap.size * 8).isLt
  rcases givePage_cases account s addr with ⟨hno, h⟩ | ⟨hle, -, h⟩
  · rw [h]
    refine ⟨fun hm => ⟨hm, ?_⟩, And.left⟩
    rintro rfl
    rcases hno with hlt | hfalse
    · omega
    · rw [hm] at hfalse
      exact Bool.noConfusion hfalse
  · rw [h, Machine.marked_setMark (by simp) hle hk64]
    by_cases hkf : k = frameIndex addr
    · simp [hkf]
    · simp [hkf, Ne.symm hkf]

/-! ## Ranges of frames -/

theorem keeps_forPages {op : Kernel → BitVec 64 → Kernel} (hop : ∀ s addr, Keeps s (op s addr))
    (s : Kernel) (addr pageCount : BitVec 64) : Keeps s (forPages op s addr pageCount) :=
  forInt_induction (fun i s' _ h => h.trans (hop s' (pageAt addr i))) (Keeps.refl s)

/-- A range writes the bytes of the marks of its loop only, when one frame does. -/
theorem forPages_mem {op : Kernel → BitVec 64 → Kernel} (hkeeps : ∀ s addr, Keeps s (op s addr))
    {x : BitVec 64}
    (hmem : ∀ (s : Kernel) addr,
      (frameIndex addr ≤ s.last → x ≠ s.alloc.pageBitmap.byteAddr (frameIndex addr)) →
        (op s addr).mem x = s.mem x)
    {s : Kernel} {addr pageCount : BitVec 64}
    (hx : ∀ k ≤ s.last, LoopFrames addr pageCount k → x ≠ s.alloc.pageBitmap.byteAddr k) :
    (forPages op s addr pageCount).mem x = s.mem x := by
  refine (forInt_induction (P := fun t : Kernel => Keeps s t ∧ t.mem x = s.mem x) ?_
    ⟨Keeps.refl s, rfl⟩).2
  intro i t hi ht
  refine ⟨ht.1.trans (hkeeps t (pageAt addr i)), ?_⟩
  refine (hmem t (pageAt addr i) fun hle => ?_).trans ht.2
  rw [ht.1.pageBitmap]
  exact hx _ (ht.1.last ▸ hle) ⟨i, hi, rfl⟩

/-- Taking a range writes the bytes of the marks of its loop only. -/
theorem forPages_takePage_mem {account : Account} {s : Kernel} {addr pageCount x : BitVec 64}
    (hx : ∀ k ≤ s.last, LoopFrames addr pageCount k → x ≠ s.alloc.pageBitmap.byteAddr k) :
    (forPages (takePage account) s addr pageCount).mem x = s.mem x :=
  forPages_mem (keeps_takePage account) (fun _ _ => takePage_mem) hx

/-- **Taking a range marks the frames of its loop.** -/
theorem marked_forPages_takePage {account : Account} {s : Kernel} {addr pageCount : BitVec 64}
    {k : ℕ} (hk : k ≤ s.last) :
    (forPages (takePage account) s addr pageCount).marked k = true ↔
      s.marked k = true ∨ LoopFrames addr pageCount k := by
  refine forInt_iff (I := fun t : Kernel => k ≤ t.last)
    (Q := fun t : Kernel => t.marked k = true) (H := fun i => frameIndex (pageAt addr i) = k)
    ?_ ?_ hk
  · intro i t _ ht
    rwa [(keeps_takePage account t (pageAt addr i)).last]
  · intro i t _ ht
    exact marked_takePage ht

/-- **Giving a range back unmarks the frames of its loop.** -/
theorem marked_forPages_givePage {account : Account} {s : Kernel} {addr pageCount : BitVec 64}
    {k : ℕ} (hk : k ≤ s.last) :
    (forPages (givePage account) s addr pageCount).marked k = true ↔
      s.marked k = true ∧ ¬ LoopFrames addr pageCount k := by
  -- the loop can only switch the absence of the mark on
  have h := forInt_iff (n := pageCount) (f := fun i t => givePage account t (pageAt addr i))
    (I := fun t : Kernel => k ≤ t.last) (Q := fun t : Kernel => ¬ t.marked k = true)
    (H := fun i => frameIndex (pageAt addr i) = k) ?_ ?_ (s := s) hk
  · rw [← not_iff_not, forPages, h, not_and_or, not_not]
    rfl
  · intro i t _ ht
    rwa [(keeps_givePage account t (pageAt addr i)).last]
  · intro i t _ ht
    rw [marked_givePage ht, not_and_or, not_ne_iff]

end EtaOs
