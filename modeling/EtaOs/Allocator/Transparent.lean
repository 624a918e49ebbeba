import EtaOs.Allocator.Runs

/-!
# The search hint is transparent

A scan that starts anywhere among the frames below which all are marked finds the same frame.
So two states that differ in the hint alone answer every later request alike.

The hint is there for speed, and this is the statement that it is there for nothing else.  It is
proved of runs with arbitrary arguments, since a request cannot know what has been freed before it.

* `requestPage_withHint`: the answer, and the state after it, do not depend on the hint.
* `requestPage_transparent`: this in every reachable state, with the frame that is found.
* `SameButHint`, `SameButHint.runOps`: states that differ in the hint alone, after any calls.
-/

namespace EtaOs

open ByteMemory IntLoop

/-! ## One request -/

/-- The lowest clear frame is the only one of its kind. -/
theorem lowest_unique {s : Kernel} {i j : ℕ} (hi : s.marked i = false)
    (hbelow : ∀ k < i, s.marked k = true) (hj : s.marked j = false)
    (hbelow' : ∀ k < j, s.marked k = true) : i = j := by
  rcases Nat.lt_trichotomy i j with hlt | heq | hlt
  · rw [hbelow' i hlt] at hi
    exact Bool.noConfusion hi
  · exact heq
  · rw [hbelow j hlt] at hj
    exact Bool.noConfusion hj

/-- **A request does not depend on the hint**, as long as every frame below it is marked. -/
theorem requestPage_withHint {s : Kernel} (h : HintInv s) {i : BitVec 64}
    (h' : HintInv (s.withHint i)) : requestPage (s.withHint i) = requestPage s := by
  rcases requestPage_cases h with ⟨j, hj, hfree, hbelow, heq⟩ | ⟨hall, heq⟩ <;>
    rcases requestPage_cases h' with ⟨k, hk, hfree', hbelow', heq'⟩ | ⟨hall', heq'⟩
  · have hjk : j = k := BitVec.eq_of_toNat_eq (lowest_unique hfree hbelow hfree' hbelow')
    rw [heq, heq', hjk]
    rfl
  · have hmarked : s.marked j.toNat = true := hall' j.toNat hj
    rw [hmarked] at hfree
    exact Bool.noConfusion hfree
  · have hmarked : (s.withHint i).marked k.toNat = true := hall k.toNat hk
    rw [hmarked] at hfree'
    exact Bool.noConfusion hfree'
  · rw [heq, heq']
    rfl

/-- The scan may always start at frame `0`. -/
theorem HintInv.withHint_zero {s : Kernel} (h : HintInv s) : HintInv (s.withHint 0) :=
  h.withHint (Nat.zero_le _) fun k hk => absurd hk (Nat.not_lt_zero k)

/-- **The search hint is transparent.**  In every reachable state all frames below the hint are
marked, a request does what it would do with the hint at `0`, and it returns the lowest clear
frame among the first `size` frames, or `NULL` when there is none. -/
theorem requestPage_transparent (m : Mem) (memMap : List EfiMemoryDescriptor)
    (ops : List AllocOp) :
    let s := runOps (readEfiMemoryMap (bootKernel m) memMap) ops
    (∀ k < s.alloc.pageBitmapIndex.toNat, s.marked k = true) ∧
      requestPage s = requestPage (s.withHint 0) ∧
      ((∃ i : BitVec 64, i.toNat < s.alloc.pageBitmap.size.toNat ∧ s.marked i.toNat = false ∧
          (∀ k < i.toNat, s.marked k = true) ∧ (requestPage s).1 = i * 4096 ∧
          frameIndex (requestPage s).1 = i.toNat ∧
          (requestPage s).2 = lockPage (s.withHint i) (i * 4096)) ∨
        (∀ k < s.alloc.pageBitmap.size.toNat, s.marked k = true) ∧ (requestPage s).1 = 0 ∧
          (requestPage s).2 = s.withHint s.alloc.pageBitmap.size) := by
  intro s
  have h : HintInv s := hintInv_runOps m memMap ops
  refine ⟨h.below, (requestPage_withHint h h.withHint_zero).symm, ?_⟩
  rcases requestPage_cases h with ⟨i, hi, hfree, hbelow, heq⟩ | ⟨hall, heq⟩
  · have hsize := h.size_lt
    have hframe : frameIndex (requestPage s).1 = i.toNat := by
      rw [heq]
      exact frameIndex_mul (by omega)
    exact Or.inl ⟨i, hi, hfree, hbelow, congrArg Prod.fst heq, hframe, congrArg Prod.snd heq⟩
  · exact Or.inr ⟨hall, congrArg Prod.fst heq, congrArg Prod.snd heq⟩

/-! ## Runs from states that differ in the hint -/

/-- Two states that differ in the hint alone, both with every frame below it marked. -/
structure SameButHint (s t : Kernel) : Prop where
  left : HintInv s
  right : HintInv t
  same : t = s.withHint t.alloc.pageBitmapIndex

theorem HintInv.sameButHint {s : Kernel} (h : HintInv s) : SameButHint s s := ⟨h, h, rfl⟩

/-- The calls on one frame look at the marks, not at the hint. -/
theorem withHint_takePage (account : Account) (s : Kernel) (i addr : BitVec 64) :
    takePage account (s.withHint i) addr = (takePage account s addr).withHint i := by
  rcases takePage_cases account s addr with ⟨hno, heq⟩ | ⟨hle, hfree, heq⟩ <;>
    rcases takePage_cases account (s.withHint i) addr with ⟨hno', heq'⟩ | ⟨hle', hfree', heq'⟩
  · rw [heq, heq']
  · have hmarked := hno.resolve_left (not_lt.mpr hle')
    exact absurd (hfree'.symm.trans hmarked) Bool.false_ne_true
  · have hmarked := hno'.resolve_left (not_lt.mpr hle)
    exact absurd (hfree.symm.trans hmarked) Bool.false_ne_true
  · rw [heq, heq']
    cases account <;> rfl

theorem PageFrameAllocator.lowerHint_hint (a : PageFrameAllocator) (i index : BitVec 64) :
    ∃ j, { a with pageBitmapIndex := i }.lowerHint index =
      { a.lowerHint index with pageBitmapIndex := j } := by
  unfold lowerHint
  split_ifs
  · exact ⟨index, rfl⟩
  · exact ⟨index, rfl⟩
  · exact ⟨i, rfl⟩
  · exact ⟨i, rfl⟩

theorem withHint_givePage (account : Account) (s : Kernel) (i addr : BitVec 64) :
    ∃ j, givePage account (s.withHint i) addr = (givePage account s addr).withHint j := by
  rcases givePage_cases account s addr with ⟨hno, heq⟩ | ⟨hle, hmarked, heq⟩ <;>
    rcases givePage_cases account (s.withHint i) addr with ⟨hno', heq'⟩ | ⟨hle', hmarked', heq'⟩
  · exact ⟨i, by rw [heq, heq']⟩
  · have hclear := hno.resolve_left (not_lt.mpr hle')
    exact absurd (hclear.symm.trans hmarked') Bool.false_ne_true
  · have hclear := hno'.resolve_left (not_lt.mpr hle)
    exact absurd (hclear.symm.trans hmarked) Bool.false_ne_true
  · have hgive : (s.withHint i).alloc.give account =
        { s.alloc.give account with pageBitmapIndex := i } := by cases account <;> rfl
    obtain ⟨j, hj⟩ := PageFrameAllocator.lowerHint_hint (s.alloc.give account) i (addr / 4096)
    refine ⟨j, ?_⟩
    rw [heq, heq', hgive, hj]
    rfl

namespace SameButHint

variable {s t : Kernel}

/-- A step that does the same up to the hint. -/
theorem of_withHint {s' t' : Kernel} (hs : HintInv s') (ht : HintInv t')
    (h : ∃ j, t' = s'.withHint j) : SameButHint s' t' := by
  obtain ⟨j, rfl⟩ := h
  exact ⟨hs, ht, rfl⟩

theorem takePage (h : SameButHint s t) (account : Account) (addr : BitVec 64) :
    SameButHint (takePage account s addr) (takePage account t addr) := by
  refine of_withHint (h.left.takePage account addr) (h.right.takePage account addr)
    ⟨t.alloc.pageBitmapIndex, ?_⟩
  conv_lhs => rw [h.same]
  exact withHint_takePage account s _ addr

theorem givePage (h : SameButHint s t) (account : Account) (addr : BitVec 64) :
    SameButHint (givePage account s addr) (givePage account t addr) := by
  refine of_withHint (h.left.givePage account addr) (h.right.givePage account addr) ?_
  conv => enter [1, j, 1]; rw [h.same]
  exact withHint_givePage account s _ addr

theorem forPages (h : SameButHint s t) {op : Kernel → BitVec 64 → Kernel}
    (hop : ∀ s t addr, SameButHint s t → SameButHint (op s addr) (op t addr))
    (addr pageCount : BitVec 64) :
    SameButHint (forPages op s addr pageCount) (forPages op t addr pageCount) :=
  forInt_rel (fun i s t hst => hop s t (pageAt addr i) hst) h

/-- A request has the same answer, and leaves the same state, hint included. -/
theorem requestPage_eq (h : SameButHint s t) : requestPage t = requestPage s := by
  have hright := h.right
  rw [h.same] at hright ⊢
  exact requestPage_withHint h.left hright

/-- **One call keeps the states the same up to the hint.** -/
theorem apply (h : SameButHint s t) (op : AllocOp) : SameButHint (op.apply s) (op.apply t) := by
  cases op with
  | requestPage =>
      show SameButHint (requestPage s).2 (requestPage t).2
      rw [h.requestPage_eq]
      exact h.left.requestPage.sameButHint
  | lockPage addr => exact h.takePage .used addr
  | lockPages addr pageCount =>
      exact h.forPages (fun s t a hst => hst.takePage .used a) addr pageCount
  | freePage addr => exact h.givePage .used addr
  | freePages addr pageCount =>
      exact h.forPages (fun s t a hst => hst.givePage .used a) addr pageCount

/-- **A difference in the hint is never observed**: after any calls a request has the same
answer. -/
theorem requestPage_runOps (h : SameButHint s t) (ops : List AllocOp) :
    requestPage (runOps t ops) = requestPage (runOps s ops) := by
  induction ops generalizing s t with
  | nil => exact h.requestPage_eq
  | cons op ops ih => exact ih (h.apply op)

end SameButHint

end EtaOs
