import EtaOs.Allocator.Marks

/-!
# The search hint and `request_page`

`request_page` scans upwards from a hint that is kept between calls.  The scan is
right because every frame below the hint is marked, which every operation keeps:
marking cannot break it, and giving a frame back lowers the hint to that frame.

With the invariant a request can be described without the hint: it returns the lowest unmarked
frame of the first `size` and marks it, or there is none and it returns `NULL`.  That is the
description all later modules use.  Only `lower_hint` of the freeing operations makes it hold, as a
frame that is given back below the hint would never be found again.

* `HintInv`: the invariant of the hint, with the size bound of every bitmap that
  `read_efi_memory_map` makes.
* `requestPage_cases`: `request_page` takes the first unmarked frame from the hint on,
  or finds the first `size` frames all marked.
* `requestPage_eq_zero_iff`: when `request_page` returns `NULL`.
-/

namespace EtaOs

open ByteMemory IntLoop

/-- A kernel with its search hint moved. -/
def Machine.withHint (s : Kernel) (i : BitVec 64) : Kernel :=
  { s with alloc := { s.alloc with pageBitmapIndex := i } }

theorem keeps_withHint (s : Kernel) (i : BitVec 64) : Keeps s (s.withHint i) :=
  ⟨rfl, rfl, rfl, rfl, rfl, fun _ _ => rfl⟩

/-- Every frame below the hint is marked, and the hint is inside the bitmap. -/
structure HintInv (s : Kernel) : Prop where
  size_lt : s.alloc.pageBitmap.size.toNat < 2 ^ 50
  hint_le : s.alloc.pageBitmapIndex.toNat ≤ s.alloc.pageBitmap.size.toNat
  below : ∀ k < s.alloc.pageBitmapIndex.toNat, s.marked k = true

/-- The last index is `8 * size`, one more than the last bit of the buffer. -/
theorem Machine.last_eq {s : Kernel} (h : s.alloc.pageBitmap.size.toNat < 2 ^ 50) :
    s.last = 8 * s.alloc.pageBitmap.size.toNat := by
  rw [Machine.last, Bitmap.last, BitVec.toNat_mul]
  simp only [BitVec.ofNat_eq_ofNat, BitVec.toNat_ofNat]
  omega

/-- The frame at a byte index of the bitmap. -/
theorem frameIndex_mul {i : BitVec 64} (h : i.toNat < 2 ^ 50) :
    frameIndex (i * 4096) = i.toNat := by
  rw [frameIndex_eq, BitVec.toNat_mul]
  simp only [BitVec.ofNat_eq_ofNat, BitVec.toNat_ofNat]
  omega

namespace HintInv

variable {s : Kernel}

theorem last_eq (h : HintInv s) : s.last = 8 * s.alloc.pageBitmap.size.toNat :=
  Machine.last_eq h.size_lt

theorem takePage (h : HintInv s) (account : Account) (addr : BitVec 64) :
    HintInv (takePage account s addr) := by
  have hkeeps := keeps_takePage account s addr
  have hhint := takePage_pageBitmapIndex account s addr
  refine ⟨?_, ?_, ?_⟩
  · rw [hkeeps.pageBitmap]
    exact h.size_lt
  · rw [hkeeps.pageBitmap, hhint]
    exact h.hint_le
  · intro k hk
    rw [hhint] at hk
    have hle := h.hint_le
    have hlast := h.last_eq
    exact (marked_takePage (by omega)).mpr (Or.inl (h.below k hk))

theorem givePage (h : HintInv s) (account : Account) (addr : BitVec 64) :
    HintInv (givePage account s addr) := by
  have hkeeps := keeps_givePage account s addr
  have hle := h.hint_le
  have hlast := h.last_eq
  rcases givePage_cases account s addr with ⟨-, heq⟩ | ⟨-, -, heq⟩
  · rwa [heq]
  · -- the hint is now at most the frame given back
    have hhint : (EtaOs.givePage account s addr).alloc.pageBitmapIndex.toNat =
        min s.alloc.pageBitmapIndex.toNat (frameIndex addr) := by
      rw [heq]
      exact (PageFrameAllocator.lowerHint_pageBitmapIndex _ _).trans
        (by rw [PageFrameAllocator.give_pageBitmapIndex, frameIndex])
    refine ⟨?_, ?_, ?_⟩
    · rw [hkeeps.pageBitmap]
      exact h.size_lt
    · rw [hkeeps.pageBitmap, hhint]
      omega
    · intro k hk
      rw [hhint] at hk
      exact (marked_givePage (by omega)).mpr ⟨h.below k (by omega), by omega⟩

theorem forPages (h : HintInv s) {op : Kernel → BitVec 64 → Kernel}
    (hop : ∀ t addr, HintInv t → HintInv (op t addr)) (addr pageCount : BitVec 64) :
    HintInv (forPages op s addr pageCount) :=
  forInt_induction (fun i t _ ht => hop t (pageAt addr i) ht) h

end HintInv

/-! ## Requests -/

/-- The scan from the hint on. -/
theorem requestLoop_cases : ∀ (fuel : ℕ) (s : Kernel),
    s.alloc.pageBitmap.size.toNat < 2 ^ 50 →
    s.alloc.pageBitmapIndex.toNat ≤ s.alloc.pageBitmap.size.toNat →
    s.alloc.pageBitmap.size.toNat ≤ fuel + s.alloc.pageBitmapIndex.toNat →
    (∃ i : BitVec 64, i.toNat < s.alloc.pageBitmap.size.toNat ∧
      s.alloc.pageBitmapIndex.toNat ≤ i.toNat ∧ s.marked i.toNat = false ∧
      (∀ k, s.alloc.pageBitmapIndex.toNat ≤ k → k < i.toNat → s.marked k = true) ∧
      requestLoop fuel s = (i * 4096, lockPage (s.withHint i) (i * 4096))) ∨
    (∀ k, s.alloc.pageBitmapIndex.toNat ≤ k → k < s.alloc.pageBitmap.size.toNat →
      s.marked k = true) ∧
      requestLoop fuel s = (0, s.withHint s.alloc.pageBitmap.size) := by
  intro fuel
  induction fuel with
  | zero =>
      intro s _ hle hfuel
      refine Or.inr ⟨fun k h1 h2 => absurd h2 (by omega), ?_⟩
      have heq : s.alloc.pageBitmapIndex = s.alloc.pageBitmap.size := by bv_omega
      rw [requestLoop, ← heq]
      rfl
  | succ fuel ih =>
      intro s hsize hle hfuel
      have hlast := Machine.last_eq hsize
      have hget := s.alloc.pageBitmap.get_eq s.mem s.alloc.pageBitmapIndex
      have hin : s.alloc.pageBitmapIndex.toNat ≤ s.alloc.pageBitmap.last := by
        have : s.last = s.alloc.pageBitmap.last := rfl
        omega
      rw [decide_eq_true hin, Bool.true_and] at hget
      rw [requestLoop]
      by_cases hlt : s.alloc.pageBitmapIndex < s.alloc.pageBitmap.size
      · have hlt' : s.alloc.pageBitmapIndex.toNat < s.alloc.pageBitmap.size.toNat := hlt
        simp only [hlt, if_true]
        cases hm : s.marked s.alloc.pageBitmapIndex.toNat with
        | false =>
            have hgetf : s.alloc.pageBitmap.get s.mem s.alloc.pageBitmapIndex = false :=
              hget.trans hm
            refine Or.inl ⟨s.alloc.pageBitmapIndex, hlt', le_refl _, hm, ?_, ?_⟩
            · intro k h1 h2
              omega
            · simp only [hgetf, beq_iff_eq, Bool.false_eq_true, if_false]
              rfl
        | true =>
            have hgett : s.alloc.pageBitmap.get s.mem s.alloc.pageBitmapIndex = true :=
              hget.trans hm
            simp only [hgett, beq_self_eq_true, if_true]
            -- the scan goes on from the next index, with the same marks
            have hsucc : (s.alloc.pageBitmapIndex + 1).toNat =
                s.alloc.pageBitmapIndex.toNat + 1 := by bv_omega
            have hrest := ih (s.withHint (s.alloc.pageBitmapIndex + 1)) hsize
              (by simp only [Machine.withHint]; omega) (by simp only [Machine.withHint]; omega)
            simp only [Machine.withHint, hsucc] at hrest
            rcases hrest with ⟨i, hi, hge, hfree, hbelow, heq⟩ | ⟨hall, heq⟩
            · refine Or.inl ⟨i, hi, by omega, hfree, ?_, heq⟩
              intro k h1 h2
              by_cases hk : k = s.alloc.pageBitmapIndex.toNat
              · rw [hk]
                exact hm
              · exact hbelow k (by omega) h2
            · refine Or.inr ⟨?_, heq⟩
              intro k h1 h2
              by_cases hk : k = s.alloc.pageBitmapIndex.toNat
              · rw [hk]
                exact hm
              · exact hall k (by omega) h2
      · have heq : s.alloc.pageBitmapIndex = s.alloc.pageBitmap.size := by bv_omega
        refine Or.inr ⟨fun k h1 h2 => absurd h2 (by bv_omega), ?_⟩
        simp only [hlt, if_false]
        rw [← heq]
        rfl

/-- **What a request does.**  It takes the first unmarked frame among the first `size`
frames, or finds them all marked and returns `NULL`. -/
theorem requestPage_cases {s : Kernel} (h : HintInv s) :
    (∃ i : BitVec 64, i.toNat < s.alloc.pageBitmap.size.toNat ∧ s.marked i.toNat = false ∧
      (∀ k < i.toNat, s.marked k = true) ∧
      requestPage s = (i * 4096, lockPage (s.withHint i) (i * 4096))) ∨
    (∀ k < s.alloc.pageBitmap.size.toNat, s.marked k = true) ∧
      requestPage s = (0, s.withHint s.alloc.pageBitmap.size) := by
  have hmark : ∀ k, (s.alloc.pageBitmapIndex.toNat ≤ k → s.marked k = true) →
      s.marked k = true := by
    intro k hk
    rcases Nat.lt_or_ge k s.alloc.pageBitmapIndex.toNat with hlt | hge
    · exact h.below k hlt
    · exact hk hge
  rcases requestLoop_cases s.alloc.pageBitmap.size.toNat s h.size_lt h.hint_le (by omega) with
    ⟨i, hi, -, hfree, hbelow, heq⟩ | ⟨hall, heq⟩
  · exact Or.inl ⟨i, hi, hfree, fun k hk => hmark k fun hge => hbelow k hge hk, heq⟩
  · exact Or.inr ⟨fun k hk => hmark k fun hge => hall k hge hk, heq⟩

theorem HintInv.withHint {s : Kernel} (h : HintInv s) {i : BitVec 64}
    (hi : i.toNat ≤ s.alloc.pageBitmap.size.toNat) (hmark : ∀ k < i.toNat, s.marked k = true) :
    HintInv (s.withHint i) :=
  ⟨h.size_lt, hi, hmark⟩

theorem HintInv.requestPage {s : Kernel} (h : HintInv s) : HintInv (requestPage s).2 := by
  rcases requestPage_cases h with ⟨i, hi, -, hbelow, heq⟩ | ⟨hall, heq⟩
  · rw [heq]
    exact (h.withHint (Nat.le_of_lt hi) hbelow).takePage .used (i * 4096)
  · rw [heq]
    exact h.withHint (le_refl _) hall

theorem keeps_requestLoop : ∀ (fuel : ℕ) (s : Kernel), Keeps s (requestLoop fuel s).2 := by
  intro fuel
  induction fuel with
  | zero =>
      intro s
      exact Keeps.refl s
  | succ fuel ih =>
      intro s
      rw [requestLoop]
      dsimp only
      split
      · split
        · exact (keeps_withHint s _).trans (ih (s.withHint _))
        · exact keeps_takePage .used s (s.alloc.pageBitmapIndex * 4096)
      · exact Keeps.refl s

theorem keeps_requestPage (s : Kernel) : Keeps s (requestPage s).2 := keeps_requestLoop _ s

/-- **A request returns the lowest frame that is not marked.** -/
theorem frameIndex_requestPage {s : Kernel} (h : HintInv s) {c : ℕ}
    (hc : c < s.alloc.pageBitmap.size.toNat) (hfree : s.marked c = false)
    (hbelow : ∀ k < c, s.marked k = true) : frameIndex (requestPage s).1 = c := by
  rcases requestPage_cases h with ⟨i, hi, hclear, hlow, heq⟩ | ⟨hall, -⟩
  · have hsize := h.size_lt
    have hge : ¬ i.toNat < c := by
      intro hlt
      rw [hbelow i.toNat hlt] at hclear
      exact Bool.noConfusion hclear
    have hle : ¬ c < i.toNat := by
      intro hgt
      rw [hlow c hgt] at hfree
      exact Bool.noConfusion hfree
    rw [heq]
    exact (frameIndex_mul (by omega)).trans (by omega)
  · rw [hall c hc] at hfree
    exact Bool.noConfusion hfree

/-- A frame that is not `NULL` comes from an index that was unmarked. -/
theorem requestPage_ne_zero {s : Kernel} (h : HintInv s) (hne : (requestPage s).1 ≠ 0) :
    ∃ i : BitVec 64, i ≠ 0 ∧ i.toNat < s.alloc.pageBitmap.size.toNat ∧ s.marked i.toNat = false ∧
      (requestPage s).1 = i * 4096 := by
  rcases requestPage_cases h with ⟨i, hi, hfree, -, heq⟩ | ⟨-, heq⟩
  · refine ⟨i, ?_, hi, hfree, congrArg Prod.fst heq⟩
    rintro rfl
    exact hne (congrArg Prod.fst heq)
  · exact absurd (congrArg Prod.fst heq) hne

/-- A request writes the byte of the mark of its frame only. -/
theorem requestPage_mem {s : Kernel} (h : HintInv s) {x : BitVec 64}
    (hx : x ≠ s.alloc.pageBitmap.byteAddr (frameIndex (requestPage s).1)) :
    (requestPage s).2.mem x = s.mem x := by
  rcases requestPage_cases h with ⟨i, -, -, -, heq⟩ | ⟨-, heq⟩
  · rw [heq] at hx ⊢
    exact takePage_mem (s := s.withHint i) fun _ => hx
  · rw [heq]
    rfl

/-- The hint after a request that returns a frame is that frame. -/
theorem requestPage_pageBitmapIndex {s : Kernel} (h : HintInv s) (hne : (requestPage s).1 ≠ 0) :
    (requestPage s).2.alloc.pageBitmapIndex.toNat = frameIndex (requestPage s).1 := by
  rcases requestPage_cases h with ⟨i, hi, -, -, heq⟩ | ⟨-, heq⟩
  · have hsize := h.size_lt
    rw [heq]
    refine (congrArg BitVec.toNat
      (takePage_pageBitmapIndex .used (s.withHint i) (i * 4096))).trans ?_
    exact (frameIndex_mul (i := i) (by omega)).symm
  · exact absurd (congrArg Prod.fst heq) hne

/-- The marks after a request: the frame returned is marked, when one is. -/
theorem marked_requestPage {s : Kernel} (h : HintInv s) {k : ℕ} (hk : k ≤ s.last) :
    (requestPage s).2.marked k = true ↔
      s.marked k = true ∨ ((∃ j < s.alloc.pageBitmap.size.toNat, s.marked j = false) ∧
        frameIndex (requestPage s).1 = k) := by
  rcases requestPage_cases h with ⟨i, hi, hfree, -, heq⟩ | ⟨hall, heq⟩
  · rw [heq]
    refine (marked_takePage (s := s.withHint i) hk).trans ?_
    refine or_congr Iff.rfl ?_
    exact ⟨fun hf => ⟨⟨i.toNat, hi, hfree⟩, hf⟩, And.right⟩
  · rw [heq]
    refine ⟨Or.inl, ?_⟩
    rintro (hm | ⟨⟨j, hj, hfree⟩, -⟩)
    · exact hm
    · rw [hall j hj] at hfree
      exact Bool.noConfusion hfree

/-- **When a request returns `NULL`.**  The scan stops at byte index `size`, and frame
`0` is the null pointer. -/
theorem requestPage_eq_zero_iff {s : Kernel} (h : HintInv s) :
    (requestPage s).1 = 0 ↔
      (∀ k < s.alloc.pageBitmap.size.toNat, s.marked k = true) ∨
        (s.marked 0 = false ∧ 0 < s.alloc.pageBitmap.size.toNat) := by
  rcases requestPage_cases h with ⟨i, hi, hfree, hbelow, heq⟩ | ⟨hall, heq⟩
  · have hsize := h.size_lt
    have hzero : i * 4096 = 0 ↔ i.toNat = 0 := by
      have hf := frameIndex_mul (i := i) (by omega)
      constructor
      · intro h0
        rw [h0] at hf
        simpa [frameIndex] using hf.symm
      · intro h0
        have : i = 0 := BitVec.eq_of_toNat_eq h0
        rw [this]
        rfl
    rw [heq]
    show i * 4096 = 0 ↔ _
    rw [hzero]
    constructor
    · intro h0
      rw [h0] at hfree hi
      exact Or.inr ⟨hfree, hi⟩
    · rintro (hall | ⟨h0, -⟩)
      · rw [hall i.toNat hi] at hfree
        exact Bool.noConfusion hfree
      · by_contra hne
        rw [hbelow 0 (by omega)] at h0
        exact Bool.noConfusion h0
  · rw [heq]
    exact ⟨fun _ => Or.inl hall, fun _ => rfl⟩

/-! ## The allocator as a source of frames -/

/-- The page frame allocator as the source of frames before paging, when the pointer to its
bitmap is a physical address. -/
def bootAllocator : FrameSource PageFrameAllocator where
  request := requestPage
  faults := fun _ => false
  cr3 := fun s => (keeps_requestPage s).cr3
  requests := fun s => (keeps_requestPage s).requests
  noFault := fun _ _ => rfl

end EtaOs
