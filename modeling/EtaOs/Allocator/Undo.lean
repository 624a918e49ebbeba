import EtaOs.Allocator.Evolution
import EtaOs.Allocator.Transparent

/-!
# `free_pages` undoes `lock_pages`

A clear range that is locked and then freed leaves no trace.  In between, frames may be
requested and freed again: the locked range is marked, so no request hands out a frame of it.

The state is restored up to the hint, which the frees in between may have lowered; that no later
request can tell the two hints apart is `requestPage_transparent`.

* `BorrowStep`: a request or the call that frees what a request handed out.
* `BorrowInv`: the marks while frames are borrowed.
* `freePages_lockPages`, `freePages_borrowed`: the state after the range is freed.
* `freePages_undoes_lockPages`: both, in every reachable state.
-/

namespace EtaOs

open ByteMemory IntLoop Relation

/-! ## Borrowed frames -/

/-- One call between `lock_pages` and `free_pages`, with the frames that requests handed out
and that are not freed yet.  A request that finds no clear frame hands out none. -/
inductive BorrowStep : Kernel × List (BitVec 64) → Kernel × List (BitVec 64) → Prop
  | request (s : Kernel) (held : List (BitVec 64))
      (hfound : ∃ k < s.alloc.pageBitmap.size.toNat, s.marked k = false) :
      BorrowStep (s, held) ((requestPage s).2, (requestPage s).1 :: held)
  | exhausted (s : Kernel) (held : List (BitVec 64))
      (hnone : ∀ k < s.alloc.pageBitmap.size.toNat, s.marked k = true) :
      BorrowStep (s, held) ((requestPage s).2, held)
  | free (s : Kernel) (held : List (BitVec 64)) (p : BitVec 64) (hp : p ∈ held) :
      BorrowStep (s, held) (freePage s p, held.erase p)

/-- **The marks while frames are borrowed**, from the state `l` on: those of `l`, and the
borrowed frames, which were clear in `l`. -/
structure BorrowInv (l : Kernel) (c : Kernel × List (BitVec 64)) : Prop where
  hint : HintInv c.1
  evolves : Evolves .used l c.1
  marks : ∀ k ≤ l.last, c.1.marked k = true ↔ l.marked k = true ∨ k ∈ c.2.map frameIndex
  nodup : (c.2.map frameIndex).Nodup
  clear : ∀ k ∈ c.2.map frameIndex, l.marked k = false

namespace BorrowInv

variable {l : Kernel} {s : Kernel} {held : List (BitVec 64)}

theorem init (h : HintInv l) : BorrowInv l (l, []) :=
  ⟨h, Evolves.refl .used l, fun k _ => by simp, List.nodup_nil, fun k hk => absurd hk (by simp)⟩

/-- A clear frame is borrowed. -/
theorem request (h : BorrowInv l (s, held))
    (hfound : ∃ k < s.alloc.pageBitmap.size.toNat, s.marked k = false) :
    BorrowInv l ((requestPage s).2, (requestPage s).1 :: held) := by
  have hhint : HintInv s := h.hint
  have hlast : s.last = l.last := h.evolves.keeps.last
  obtain ⟨i, hi, hfree, hframe⟩ : ∃ i ≤ s.last, s.marked i = false ∧
      frameIndex (requestPage s).1 = i := by
    rcases requestPage_cases hhint with ⟨i, hi, hfree, -, heq⟩ | ⟨hall, -⟩
    · have hsize := hhint.size_lt
      have hle := hhint.last_eq
      refine ⟨i.toNat, by omega, hfree, ?_⟩
      rw [heq]
      exact frameIndex_mul (by omega)
    · obtain ⟨k, hk, hclear⟩ := hfound
      rw [hall k hk] at hclear
      exact Bool.noConfusion hclear
  have hnot : ¬ (l.marked i = true ∨ i ∈ held.map frameIndex) := fun hmarked => by
    rw [(h.marks i (hlast ▸ hi)).mpr hmarked] at hfree
    exact Bool.noConfusion hfree
  refine ⟨hhint.requestPage, h.evolves.trans (Evolves.requestPage hhint), fun k hk => ?_, ?_, ?_⟩
  · show (requestPage s).2.marked k = true ↔ _
    rw [marked_requestPage hhint (hlast ▸ hk), h.marks k hk, List.map_cons, List.mem_cons, hframe,
      or_assoc]
    refine or_congr_right ⟨?_, ?_⟩
    · rintro (hk' | ⟨-, rfl⟩)
      · exact Or.inr hk'
      · exact Or.inl rfl
    · rintro (rfl | hk')
      · exact Or.inr ⟨hfound, rfl⟩
      · exact Or.inl hk'
  · show ((requestPage s).1 :: held |>.map frameIndex).Nodup
    rw [List.map_cons, hframe, List.nodup_cons]
    exact ⟨fun hmem => hnot (Or.inr hmem), h.nodup⟩
  · intro k hk
    rw [List.map_cons, List.mem_cons, hframe] at hk
    rcases hk with rfl | hk
    · exact Bool.eq_false_iff.mpr fun hm => hnot (Or.inl hm)
    · exact h.clear k hk

/-- A request that finds nothing moves the hint only. -/
theorem exhausted (h : BorrowInv l (s, held))
    (hnone : ∀ k < s.alloc.pageBitmap.size.toNat, s.marked k = true) :
    BorrowInv l ((requestPage s).2, held) := by
  have hhint : HintInv s := h.hint
  refine ⟨hhint.requestPage, h.evolves.trans (Evolves.requestPage hhint), ?_, h.nodup, h.clear⟩
  rcases requestPage_cases hhint with ⟨i, hi, hfree, -, -⟩ | ⟨-, heq⟩
  · rw [hnone i.toNat hi] at hfree
    exact Bool.noConfusion hfree
  · rw [heq]
    exact h.marks

/-- A borrowed frame is freed again. -/
theorem free (h : BorrowInv l (s, held)) {p : BitVec 64} (hp : p ∈ held) :
    BorrowInv l (freePage s p, held.erase p) := by
  have hlast : s.last = l.last := h.evolves.keeps.last
  have hperm : (held.map frameIndex).Perm (frameIndex p :: (held.erase p).map frameIndex) :=
    (List.perm_cons_erase hp).map frameIndex
  have hnodup := hperm.nodup_iff.mp h.nodup
  rw [List.nodup_cons] at hnodup
  refine ⟨h.hint.givePage .used p, h.evolves.trans (Evolves.givePage .used s p), fun k hk => ?_,
    hnodup.2, fun k hk => ?_⟩
  · show (freePage s p).marked k = true ↔ _
    rw [freePage, marked_givePage (hlast ▸ hk), h.marks k hk, hperm.mem_iff, List.mem_cons]
    constructor
    · rintro ⟨hl | rfl | hk', hne⟩
      · exact Or.inl hl
      · exact absurd rfl hne
      · exact Or.inr hk'
    · rintro (hl | hk')
      · refine ⟨Or.inl hl, ?_⟩
        rintro rfl
        rw [h.clear _ (List.mem_map_of_mem hp)] at hl
        exact Bool.noConfusion hl
      · refine ⟨Or.inr (Or.inr hk'), ?_⟩
        rintro rfl
        exact hnodup.1 hk'
  · exact h.clear k (hperm.mem_iff.mpr (List.mem_cons_of_mem _ hk))

/-- **One call keeps the invariant.** -/
theorem step {c c' : Kernel × List (BitVec 64)} (hstep : BorrowStep c c') (h : BorrowInv l c) :
    BorrowInv l c' := by
  cases hstep with
  | request s held hfound => exact h.request hfound
  | exhausted s held hnone => exact h.exhausted hnone
  | free s held p hp => exact h.free hp

end BorrowInv

/-- The invariant holds after any calls. -/
theorem borrowInv_of_run {l : Kernel} {c : Kernel × List (BitVec 64)} (h : HintInv l)
    (hrun : ReflTransGen BorrowStep (l, []) c) : BorrowInv l c :=
  Runs.invariant (fun _ _ hstep hc => hc.step hstep) hrun (BorrowInv.init h)

/-! ## A clear range -/

/-- **A range of clear frames** of the bitmap, on page boundaries, short enough for the
products of the loop counter. -/
structure ClearRange (s : Kernel) (addr pageCount : BitVec 64) : Prop where
  aligned : addr.toNat % 4096 = 0
  short : pageCount.toNat < 2 ^ 19
  inside : addr.toNat / 4096 + pageCount.toNat ≤ 8 * s.alloc.pageBitmap.size.toNat
  clear : ∀ k, addr.toNat / 4096 ≤ k → k < addr.toNat / 4096 + pageCount.toNat →
    s.marked k = false

namespace ClearRange

variable {s : Kernel} {addr pageCount : BitVec 64}

/-- The frames of the range are those of the loops, when the bitmap has at most `2 ^ 52` bits. -/
theorem loopFrames (h : ClearRange s addr pageCount)
    (hbits : 8 * s.alloc.pageBitmap.size.toNat ≤ 2 ^ 52) {k : ℕ} :
    LoopFrames addr pageCount k ↔
      addr.toNat / 4096 ≤ k ∧ k < addr.toNat / 4096 + pageCount.toNat := by
  have hshort := h.short
  have hinside := h.inside
  have haligned := h.aligned
  exact loopFrames_iff (by omega) (by omega)

theorem marked_eq_false (h : ClearRange s addr pageCount)
    (hbits : 8 * s.alloc.pageBitmap.size.toNat ≤ 2 ^ 52) {k : ℕ}
    (hk : LoopFrames addr pageCount k) : s.marked k = false :=
  h.clear k ((h.loopFrames hbits).mp hk).1 ((h.loopFrames hbits).mp hk).2

end ClearRange

/-- A frame that is not below the hint does not lower it. -/
theorem givePage_hint {account : Account} {s : Kernel} {addr : BitVec 64}
    (h : s.alloc.pageBitmapIndex.toNat ≤ frameIndex addr) :
    (givePage account s addr).alloc.pageBitmapIndex = s.alloc.pageBitmapIndex := by
  rcases givePage_cases account s addr with ⟨-, heq⟩ | ⟨-, -, heq⟩
  · rw [heq]
  · rw [heq]
    refine BitVec.eq_of_toNat_eq ?_
    show ((s.alloc.give account).lowerHint (addr / 4096)).pageBitmapIndex.toNat = _
    rw [PageFrameAllocator.lowerHint_pageBitmapIndex, PageFrameAllocator.give_pageBitmapIndex]
    exact Nat.min_eq_left h

section

variable {s : Kernel} {addr pageCount : BitVec 64}

/-- The marks after a clear range is locked, whatever is borrowed and given back, and freed. -/
theorem marked_freePages {t : Kernel} (hrange : ClearRange s addr pageCount)
    (hbits : 8 * s.alloc.pageBitmap.size.toNat ≤ 2 ^ 52) (hlast : t.last = s.last)
    (hmarks : ∀ k ≤ s.last, t.marked k = true ↔ (lockPages s addr pageCount).marked k = true)
    {k : ℕ} (hk : k ≤ s.last) :
    (freePages t addr pageCount).marked k = true ↔ s.marked k = true := by
  rw [freePages, freePage, marked_forPages_givePage (hlast ▸ hk), hmarks k hk, lockPages, lockPage,
    marked_forPages_takePage hk]
  constructor
  · rintro ⟨hm | hframe, hnot⟩
    · exact hm
    · exact absurd hframe hnot
  · intro hm
    refine ⟨Or.inl hm, fun hframe => ?_⟩
    rw [hrange.marked_eq_false hbits hframe] at hm
    exact Bool.noConfusion hm

/-- **A range that is locked and freed at once** leaves the state as it was. -/
theorem freePages_lockPages (h : HintInv s) (hrange : ClearRange s addr pageCount)
    (hbits : 8 * s.alloc.pageBitmap.size.toNat ≤ 2 ^ 52) :
    freePages (lockPages s addr pageCount) addr pageCount = s := by
  have hlock : Evolves .used s (lockPages s addr pageCount) :=
    Evolves.forPages (Evolves.takePage .used) s addr pageCount
  have hevolves : Evolves .used s (freePages (lockPages s addr pageCount) addr pageCount) :=
    hlock.trans (Evolves.forPages (Evolves.givePage .used) _ addr pageCount)
  have hhint : (lockPages s addr pageCount).alloc.pageBitmapIndex = s.alloc.pageBitmapIndex :=
    forPages_takePage_pageBitmapIndex .used s addr pageCount
  -- the frames of the range were clear, so none of them is below the hint
  have hhint' : (freePages (lockPages s addr pageCount) addr pageCount).alloc.pageBitmapIndex =
      s.alloc.pageBitmapIndex := by
    refine forInt_induction
      (P := fun t : Kernel => t.alloc.pageBitmapIndex = s.alloc.pageBitmapIndex) ?_ hhint
    intro i t hi ht
    refine (givePage_hint ?_).trans ht
    rw [ht]
    by_contra hlt
    have hm := h.below _ (not_le.mp hlt)
    rw [hrange.marked_eq_false hbits ⟨i, hi, rfl⟩] at hm
    exact Bool.noConfusion hm
  have hlast := h.last_eq
  have heq := hevolves.eq_withHint (by omega) fun k hk =>
    marked_freePages hrange hbits hlock.keeps.last (fun _ _ => Iff.rfl) hk
  rw [heq, hhint']
  rfl

/-- **Frames borrowed in between** change the hint at most, and no request sees it. -/
theorem freePages_borrowed {t : Kernel} (h : HintInv s) (hrange : ClearRange s addr pageCount)
    (hbits : 8 * s.alloc.pageBitmap.size.toNat ≤ 2 ^ 52)
    (hrun : ReflTransGen BorrowStep (lockPages s addr pageCount, []) (t, [])) :
    SameButHint s (freePages t addr pageCount) := by
  have hgive : ∀ (u : Kernel) a, HintInv u → HintInv (givePage .used u a) :=
    fun u a hu => hu.givePage .used a
  have hlock : Evolves .used s (lockPages s addr pageCount) :=
    Evolves.forPages (Evolves.takePage .used) s addr pageCount
  have hinv : BorrowInv (lockPages s addr pageCount) (t, []) :=
    borrowInv_of_run (h.forPages (fun u a hu => hu.takePage .used a) addr pageCount) hrun
  have hthrough : Evolves .used s t := hlock.trans hinv.evolves
  have hlast := h.last_eq
  have hmarks : ∀ k ≤ s.last, t.marked k = true ↔ (lockPages s addr pageCount).marked k = true := by
    intro k hk
    have hmark := hinv.marks k (by rwa [hlock.keeps.last])
    simpa using hmark
  refine ⟨h, hinv.hint.forPages hgive addr pageCount, ?_⟩
  exact (hthrough.trans (Evolves.forPages (Evolves.givePage .used) t addr pageCount)).eq_withHint
    (by omega) fun k hk => marked_freePages hrange hbits hthrough.keeps.last hmarks hk

end

/-- The bitmaps of reachable states have at most `2 ^ 52` bits. -/
theorem initialBitmap_bits (memMap : List EfiMemoryDescriptor) :
    8 * (initialBitmap memMap).size.toNat ≤ 2 ^ 52 := by
  have hlt := totalFrames_lt memMap
  rw [initialBitmap_size]
  omega

/-- **`free_pages` undoes `lock_pages`** in every reachable state, for a range of fewer than
`2 ^ 19` clear frames.  At once, the state is restored exactly; with frames borrowed in between
and all given back, the state is restored up to the hint, and every later request has the
answer it would have had. -/
theorem freePages_undoes_lockPages (m : Mem) (memMap : List EfiMemoryDescriptor)
    (ops : List AllocOp) (addr pageCount : BitVec 64)
    (hrange : ClearRange (runOps (readEfiMemoryMap (bootKernel m) memMap) ops) addr pageCount) :
    let s := runOps (readEfiMemoryMap (bootKernel m) memMap) ops
    freePages (lockPages s addr pageCount) addr pageCount = s ∧
      ∀ t, ReflTransGen BorrowStep (lockPages s addr pageCount, []) (t, []) →
        (∃ i, freePages t addr pageCount = s.withHint i) ∧
          ∀ later : List AllocOp, requestPage (runOps (freePages t addr pageCount) later) =
            requestPage (runOps s later) := by
  intro s
  have h : HintInv s := hintInv_runOps m memMap ops
  have hbits : 8 * s.alloc.pageBitmap.size.toNat ≤ 2 ^ 52 := by
    rw [runOps_pageBitmap m memMap ops]
    exact initialBitmap_bits memMap
  refine ⟨freePages_lockPages h hrange hbits, fun t hrun => ?_⟩
  have hsame := freePages_borrowed h hrange hbits hrun
  exact ⟨⟨_, hsame.same⟩, hsame.requestPage_runOps⟩

/-- The second megabyte of a machine with two is clear after initialisation. -/
theorem clearRange_twoMegabytes :
    ClearRange (runOps (readEfiMemoryMap (bootKernel fun _ => 0) twoMegabytes) []) 0x100000 4 where
  aligned := by decide
  short := by decide
  inside := by
    rw [runOps_pageBitmap, initialBitmap_twoMegabytes]
    decide
  clear := by
    have haddr : (0x100000 : BitVec 64).toNat / 4096 = 256 := by decide
    have hcount : (4 : BitVec 64).toNat = 4 := by decide
    intro k hk hlt
    rw [haddr] at hk
    rw [haddr, hcount] at hlt
    rw [runOps, List.foldl_nil, marked_eq_false_iff, initMarked_twoMegabytes _ (by omega)]
    · omega
    · rw [initialBitmap_twoMegabytes]
      show k < 8 * 65
      omega

/-- Four frames of the second megabyte are locked and freed again. -/
theorem freePages_undoes_lockPages_twoMegabytes :
    let s := runOps (readEfiMemoryMap (bootKernel fun _ => 0) twoMegabytes) []
    freePages (lockPages s 0x100000 4) 0x100000 4 = s ∧
      ∀ t, ReflTransGen BorrowStep (lockPages s 0x100000 4, []) (t, []) →
        (∃ i, freePages t 0x100000 4 = s.withHint i) ∧
          ∀ later : List AllocOp, requestPage (runOps (freePages t 0x100000 4) later) =
            requestPage (runOps s later) :=
  freePages_undoes_lockPages (fun _ => 0) twoMegabytes [] 0x100000 4 clearRange_twoMegabytes

end EtaOs
