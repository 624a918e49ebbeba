import EtaOs.Allocator.Accounting

/-!
# States with the same marks

The operations on frames touch the bits of the bitmap, the counters of one account and the
hint.  The counters follow the marks, so a state that is reached from another one by such
operations, and has the same marks, is that state up to the hint.

This is what undoing an operation comes down to.  Two operations that set and clear the same bits
lead back to a state whose marks are those of the first one, and nothing has to be said about the
order in which bytes were written on the way.

* `Evolves`: what every operation on frames keeps.
* `Evolves.takePage` and its siblings: every operation is of this kind.
* `mem_eq_of_marks`: memory outside the bitmap and the marks determine memory.
* `Evolves.eq_withHint`: a state with the marks of the first one.
-/

namespace EtaOs

open ByteMemory IntLoop

/-! ## What every operation keeps -/

/-- What the operations on frames keep, from `s` to `t`: the bitmap header and memory outside
the bitmap, the bits behind the last index, and the counters up to what the marks account
for. -/
structure Evolves (account : Account) (s t : Kernel) : Prop where
  keeps : Keeps s t
  books : Books account s t
  spare : ∀ k, s.last < k → k < 2 ^ 64 → t.marked k = s.marked k

theorem marked_takePage_of_gt (account : Account) (s : Kernel) (addr : BitVec 64) {k : ℕ}
    (hk : s.last < k) (hk64 : k < 2 ^ 64) :
    (takePage account s addr).marked k = s.marked k := by
  rcases takePage_cases account s addr with ⟨-, heq⟩ | ⟨hle, -, heq⟩
  · rw [heq]
  · rw [heq, Machine.marked_setMark (by simp) hle hk64, if_neg (by omega)]

theorem marked_givePage_of_gt (account : Account) (s : Kernel) (addr : BitVec 64) {k : ℕ}
    (hk : s.last < k) (hk64 : k < 2 ^ 64) :
    (givePage account s addr).marked k = s.marked k := by
  rcases givePage_cases account s addr with ⟨-, heq⟩ | ⟨hle, -, heq⟩
  · rw [heq]
  · rw [heq, Machine.marked_setMark (by simp) hle hk64, if_neg (by omega)]

namespace Evolves

variable {account : Account} {s t u : Kernel}

theorem refl (account : Account) (s : Kernel) : Evolves account s s :=
  ⟨Keeps.refl s, Books.refl account s, fun _ _ _ => rfl⟩

theorem trans (h : Evolves account s t) (h' : Evolves account t u) : Evolves account s u where
  keeps := h.keeps.trans h'.keeps
  books := h.books.trans h'.books
  spare := by
    intro k hk hk64
    have hk' : t.last < k := by rwa [h.keeps.last]
    exact (h'.spare k hk' hk64).trans (h.spare k hk hk64)

theorem symm (h : Evolves account s t) : Evolves account t s where
  keeps := by
    obtain ⟨hbitmap, hcr3, hrequests, hinit, hsize, hmem⟩ := h.keeps
    have hlast := h.keeps.last
    refine ⟨hbitmap.symm, hcr3.symm, hrequests.symm, hinit.symm, hsize.symm, fun x hx => ?_⟩
    rw [hlast, hbitmap] at hx
    exact (hmem x hx).symm
  books := by
    obtain ⟨hlast, hfree, hbooked, hother⟩ := h.books
    exact ⟨hlast.symm, hfree.symm, hbooked.symm, fun b hb => (hother b hb).symm⟩
  spare := by
    intro k hk hk64
    rw [h.keeps.last] at hk
    exact (h.spare k hk hk64).symm

theorem withHint (account : Account) (s : Kernel) (i : BitVec 64) :
    Evolves account s (s.withHint i) where
  keeps := keeps_withHint s i
  books := ⟨rfl, rfl, by cases account <;> rfl, fun b _ => by cases b <;> rfl⟩
  spare := fun _ _ _ => rfl

theorem takePage (account : Account) (s : Kernel) (addr : BitVec 64) :
    Evolves account s (takePage account s addr) :=
  ⟨keeps_takePage account s addr, Books.takePage account s addr,
    fun _ => marked_takePage_of_gt account s addr⟩

theorem givePage (account : Account) (s : Kernel) (addr : BitVec 64) :
    Evolves account s (givePage account s addr) :=
  ⟨keeps_givePage account s addr, Books.givePage account s addr,
    fun _ => marked_givePage_of_gt account s addr⟩

theorem forPages {op : Kernel → BitVec 64 → Kernel} (hop : ∀ s addr, Evolves account s (op s addr))
    (s : Kernel) (addr pageCount : BitVec 64) :
    Evolves account s (forPages op s addr pageCount) :=
  forInt_induction (fun i t _ h => h.trans (hop t (pageAt addr i))) (refl account s)

theorem requestPage (h : HintInv s) : Evolves .used s (requestPage s).2 := by
  rcases requestPage_cases h with ⟨i, -, -, -, heq⟩ | ⟨-, heq⟩
  · rw [heq]
    exact (withHint .used s i).trans (takePage .used (s.withHint i) (i * 4096))
  · rw [heq]
    exact withHint .used s _

end Evolves

/-! ## The marks determine the state -/

/-- Every byte of the bitmap is eight marks. -/
theorem mem_eq_of_marks {s t : Kernel} (hkeeps : Keeps s t) (hlast : s.last + 8 ≤ 2 ^ 64)
    (hmarks : ∀ k < 2 ^ 64, t.marked k = s.marked k) : t.mem = s.mem := by
  funext x
  by_cases hx : ∃ k ≤ s.last, x = s.alloc.pageBitmap.byteAddr k
  · obtain ⟨k, hk, rfl⟩ := hx
    refine BitVec.eq_of_getLsbD_eq fun j hj => ?_
    -- bit `j` of the byte of frame `k` is the mark of a frame of the same byte
    have hmark := hmarks (8 * (k / 8) + (7 - j)) (by omega)
    have hbyte : s.alloc.pageBitmap.byteAddr (8 * (k / 8) + (7 - j)) =
        s.alloc.pageBitmap.byteAddr k := by
      unfold Bitmap.byteAddr
      congr 2
      omega
    have hbit : 7 - (8 * (k / 8) + (7 - j)) % 8 = j := by omega
    unfold Machine.marked Bitmap.marked at hmark
    rwa [hkeeps.pageBitmap, hbyte, hbit] at hmark
  · exact hkeeps.mem x fun k hk heq => hx ⟨k, hk, heq⟩

/-- **A state with the marks of the first one** is that state, up to the hint. -/
theorem Evolves.eq_withHint {account : Account} {s t : Kernel} (h : Evolves account s t)
    (hlast : s.last + 8 ≤ 2 ^ 64) (hmarks : ∀ k ≤ s.last, (t.marked k = true ↔ s.marked k = true)) :
    t = s.withHint t.alloc.pageBitmapIndex := by
  have hmarks' : ∀ k < 2 ^ 64, t.marked k = s.marked k := by
    intro k hk
    rcases Nat.lt_or_ge s.last k with hgt | hle
    · exact h.spare k hgt hk
    · exact Bool.eq_iff_iff.mpr (hmarks k hle)
  have hmem := mem_eq_of_marks h.keeps hlast hmarks'
  have hframes : t.markedFrames = s.markedFrames := by
    ext k
    rw [Machine.mem_markedFrames, Machine.mem_markedFrames, h.keeps.last]
    exact and_congr_right (hmarks k)
  have hfree : t.alloc.freeMemory = s.alloc.freeMemory := by
    have hsum := h.books.free
    rwa [hframes, BitVec.add_left_inj] at hsum
  have hbooked : ∀ b, t.alloc.booked b = s.alloc.booked b := by
    intro b
    by_cases hb : b = account
    · subst hb
      have hdiff := h.books.booked
      rw [hframes] at hdiff
      bv_omega
    · exact h.books.other b hb
  obtain ⟨tmem, tcr3, trequests, ⟨tbitmap, thint, tfree, treserved, tused, tinit, tsize⟩⟩ := t
  obtain ⟨smem, scr3, srequests, ⟨sbitmap, shint, sfree, sreserved, sused, sinit, ssize⟩⟩ := s
  obtain ⟨hbitmap, hcr3, hrequests, hinit, hsize, -⟩ := h.keeps
  have hused := hbooked .used
  have hreserved := hbooked .reserved
  simp only [PageFrameAllocator.booked] at *
  subst hmem hfree hused hreserved hbitmap hcr3 hrequests hinit hsize
  rfl

end EtaOs
