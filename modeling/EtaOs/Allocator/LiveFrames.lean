import EtaOs.Allocator.FreeSet

/-!
# Frames handed out and not freed

A frame is live from the request that returns it until it is freed.  Two live frames
are different because a live frame is marked and a request takes an unmarked one.  No
live frame holds a part of the bitmap as long as every frame that does is marked when
initialisation ends; the loop of `lock_pages` reaches `2 ^ 19` of them, which is the
bitmap of 64 TiB.

The invariant is about the marks, and says nothing of how a state was reached.  A frame that is
freed twice, or freed while somebody else holds it, would break it; so a run frees live frames
only, which is what the callers of the allocator owe it.

* `LiveStep`: requests, locks, and frees of live frames, with the list of live frames.
* `LiveInv`: the invariant of these runs.
* `liveSafe_iff`: the exact condition on the memory map, `BitmapMarked`, under which all
  live frames are different and apart from the bitmap; `bitmapMarked_of_small` gives it
  for a bitmap of less than `2 ^ 31` bytes.
-/

namespace EtaOs

open ByteMemory IntLoop Relation

/-- A run of `request_page`, `lock_page`, `lock_pages`, and of `free_page` on frames that
were returned and not freed since, with the list of these frames. -/
inductive LiveStep : Kernel × List (BitVec 64) → Kernel × List (BitVec 64) → Prop
  | request (c : Kernel × List (BitVec 64)) : LiveStep c (grant c)
  | lockPage (s : Kernel) (live : List (BitVec 64)) (addr : BitVec 64) :
      LiveStep (s, live) (EtaOs.lockPage s addr, live)
  | lockPages (s : Kernel) (live : List (BitVec 64)) (addr pageCount : BitVec 64) :
      LiveStep (s, live) (EtaOs.lockPages s addr pageCount, live)
  | freePage (s : Kernel) (live : List (BitVec 64)) (p : BitVec 64) (hp : p ∈ live) :
      LiveStep (s, live) (EtaOs.freePage s p, live.erase p)

/-- Frame `k` stores a byte of the buffer of the bitmap. -/
def Bitmap.StoredIn (b : Bitmap) (k : ℕ) : Prop :=
  ∃ j < b.size.toNat, frameIndex (b.buffer + BitVec.ofNat 64 j) = k

/-- Live frames are pairwise distinct, and none of them stores a byte of the bitmap. -/
def LiveSafe (m : Mem) (memMap : List EfiMemoryDescriptor) : Prop :=
  ∀ c, ReflTransGen LiveStep (readEfiMemoryMap (bootKernel m) memMap, []) c →
    (c.2.map frameIndex).Nodup ∧
      ∀ p ∈ c.2, ¬ c.1.alloc.pageBitmap.StoredIn (frameIndex p)

/-- The condition on the input: the frames of the bitmap that a request can reach are
marked by the passes of the initialisation. -/
def BitmapMarked (m : Mem) (memMap : List EfiMemoryDescriptor) : Prop :=
  ∀ k < (initialBitmap memMap).size.toNat, k ≠ 0 → (initialBitmap memMap).StoredIn k →
    InitMarked m memMap k

/-- The invariant of a run: live frames are managed and marked, and so are the frames of
the bitmap. -/
structure LiveInv (memMap : List EfiMemoryDescriptor) (c : Kernel × List (BitVec 64)) : Prop where
  hint : HintInv c.1
  bitmap : c.1.alloc.pageBitmap = initialBitmap memMap
  nodup : (c.2.map frameIndex).Nodup
  live : ∀ p ∈ c.2, frameIndex p < (initialBitmap memMap).size.toNat ∧
    c.1.marked (frameIndex p) = true
  apart : ∀ p ∈ c.2, ¬ (initialBitmap memMap).StoredIn (frameIndex p)
  stored : ∀ k < (initialBitmap memMap).size.toNat, k ≠ 0 → (initialBitmap memMap).StoredIn k →
    c.1.marked k = true

namespace LiveInv

variable {m : Mem} {memMap : List EfiMemoryDescriptor}

theorem init (h : BitmapMarked m memMap) :
    LiveInv memMap (readEfiMemoryMap (bootKernel m) memMap, []) where
  hint := hintInv_readEfiMemoryMap
  bitmap := readEfiMemoryMap_pageBitmap m memMap
  nodup := List.nodup_nil
  live := fun p hp => absurd hp List.not_mem_nil
  apart := fun p hp => absurd hp List.not_mem_nil
  stored := by
    intro k hk h0 hstored
    have hlast := initialBitmap_last memMap
    exact (marked_readEfiMemoryMap (by omega)).mpr (h k hk h0 hstored)

theorem last {c : Kernel × List (BitVec 64)} (h : LiveInv memMap c) {k : ℕ}
    (hk : k < (initialBitmap memMap).size.toNat) : k ≤ c.1.last := by
  rw [h.hint.last_eq, h.bitmap]
  omega

/-- A step that only adds marks and leaves the list alone keeps the invariant. -/
theorem of_marks {s s' : Kernel} {live : List (BitVec 64)} (h : LiveInv memMap (s, live))
    (hhint : HintInv s') (hkeeps : Keeps s s')
    (hmark : ∀ k ≤ s.last, s.marked k = true → s'.marked k = true) :
    LiveInv memMap (s', live) where
  hint := hhint
  bitmap := hkeeps.pageBitmap.trans h.bitmap
  nodup := h.nodup
  live := fun p hp => ⟨(h.live p hp).1, hmark _ (h.last (h.live p hp).1) (h.live p hp).2⟩
  apart := h.apart
  stored := fun k hk h0 hstored => hmark k (h.last hk) (h.stored k hk h0 hstored)

theorem request {c : Kernel × List (BitVec 64)} (h : LiveInv memMap c) :
    LiveInv memMap (grant c) := by
  obtain ⟨s, live⟩ := c
  have hmarks : LiveInv memMap ((requestPage s).2, live) :=
    h.of_marks h.hint.requestPage (keeps_requestPage s)
      fun k hk hm => (marked_requestPage h.hint hk).mpr (Or.inl hm)
  by_cases h0 : (requestPage s).1 = 0
  · rw [grant, if_pos h0]
    exact hmarks
  · -- the new frame was unmarked, and the live ones and those of the bitmap were not
    have hnew : (requestPage s).1 ∈ (grant (s, [])).2 := by
      rw [grant, if_neg h0]
      exact List.mem_cons_self
    obtain ⟨hlt, hfree, hne⟩ := (mem_grant h.hint hnew).resolve_left List.not_mem_nil
    have hlt' : frameIndex (requestPage s).1 < (initialBitmap memMap).size.toNat := by
      rw [← h.bitmap]
      exact hlt
    have hmark : (requestPage s).2.marked (frameIndex (requestPage s).1) = true :=
      (marked_requestPage h.hint (h.last hlt')).mpr (Or.inr ⟨⟨_, hlt, hfree⟩, rfl⟩)
    have hcontra : ∀ k, k = frameIndex (requestPage s).1 → s.marked k = true → False := by
      rintro k rfl hk
      rw [hfree] at hk
      exact Bool.noConfusion hk
    rw [grant, if_neg h0]
    refine ⟨hmarks.hint, hmarks.bitmap, ?_, ?_, ?_, hmarks.stored⟩
    · rw [List.map_cons, List.nodup_cons]
      refine ⟨?_, h.nodup⟩
      intro hmem
      obtain ⟨q, hq, heq⟩ := List.mem_map.mp hmem
      exact hcontra _ heq (h.live q hq).2
    · intro p hp
      rcases List.mem_cons.mp hp with rfl | hp
      · exact ⟨hlt', hmark⟩
      · exact hmarks.live p hp
    · intro p hp
      rcases List.mem_cons.mp hp with rfl | hp
      · exact fun hstored => hcontra _ rfl (h.stored _ hlt' hne hstored)
      · exact h.apart p hp

theorem free {s : Kernel} {live : List (BitVec 64)} (h : LiveInv memMap (s, live))
    {p : BitVec 64} (hp : p ∈ live) : LiveInv memMap (EtaOs.freePage s p, live.erase p) := by
  have hstay : ∀ k < (initialBitmap memMap).size.toNat, frameIndex p ≠ k → s.marked k = true →
      (EtaOs.freePage s p).marked k = true :=
    fun k hk hne hm => (marked_givePage (h.last hk)).mpr ⟨hm, hne⟩
  have hperm : ((live.erase p).map frameIndex).Nodup ∧
      frameIndex p ∉ (live.erase p).map frameIndex := by
    have hp' := (List.perm_cons_erase hp).map frameIndex
    have hnodup := hp'.nodup_iff.mp h.nodup
    rw [List.map_cons, List.nodup_cons] at hnodup
    exact ⟨hnodup.2, hnodup.1⟩
  refine ⟨h.hint.givePage .used p, (keeps_givePage .used s p).pageBitmap.trans h.bitmap, hperm.1,
    ?_, ?_, ?_⟩
  · intro q hq
    have hmem := List.mem_of_mem_erase hq
    refine ⟨(h.live q hmem).1, hstay _ (h.live q hmem).1 ?_ (h.live q hmem).2⟩
    intro heq
    exact hperm.2 (heq ▸ List.mem_map_of_mem hq)
  · intro q hq
    exact h.apart q (List.mem_of_mem_erase hq)
  · intro k hk h0 hstored
    refine hstay k hk ?_ (h.stored k hk h0 hstored)
    rintro rfl
    exact h.apart p hp hstored

theorem step {c c' : Kernel × List (BitVec 64)} (hstep : LiveStep c c') (h : LiveInv memMap c) :
    LiveInv memMap c' := by
  cases hstep with
  | request => exact h.request
  | lockPage s live addr =>
      exact h.of_marks (h.hint.takePage .used addr) (keeps_takePage .used s addr)
        fun k hk hm => (marked_takePage hk).mpr (Or.inl hm)
  | lockPages s live addr pageCount =>
      exact h.of_marks (h.hint.forPages (fun t a ht => ht.takePage .used a) addr pageCount)
        (keeps_forPages (keeps_takePage .used) s addr pageCount)
        fun k hk hm => (marked_forPages_takePage hk).mpr (Or.inl hm)
  | freePage s live p hp => exact h.free hp

end LiveInv

/-- **When no frame is handed out twice** and none holds a part of the bitmap. -/
theorem liveSafe_iff (m : Mem) (memMap : List EfiMemoryDescriptor) :
    LiveSafe m memMap ↔ BitmapMarked m memMap := by
  constructor
  · intro h k hk h0 hstored
    by_contra hfree
    obtain ⟨n, p, hp, rfl⟩ := exists_grant_of_not_initMarked h0 hk hfree
    have hrun := Runs.iterate LiveStep.request n (readEfiMemoryMap (bootKernel m) memMap, [])
    refine (h _ hrun).2 p hp ?_
    rwa [(grant_iterate _ _ _).2]
  · intro h c hrun
    have hinv := Runs.invariant (fun _ _ hstep hinv => LiveInv.step hstep hinv) hrun
      (LiveInv.init h)
    refine ⟨hinv.nodup, ?_⟩
    rw [hinv.bitmap]
    exact hinv.apart

/-! ## Bitmaps of less than 2 GiB -/

/-- What the loop over the memory map returns is zero or the start of a descriptor. -/
theorem largestFreeMemSeg_cases (memMap : List EfiMemoryDescriptor) :
    largestFreeMemSeg memMap = (0, 0) ∨
      ∃ desc ∈ memMap, desc.type = 7 ∧
        largestFreeMemSeg memMap = (desc.physAddr, desc.numPages * 4096) := by
  refine forEntries_induction (P := fun r => r = (0, 0) ∨
    ∃ desc ∈ memMap, desc.type = 7 ∧ r = (desc.physAddr, desc.numPages * 4096)) ?_ (Or.inl rfl)
  intro desc r hmem hr
  split
  next h7 =>
    split
    · exact Or.inr ⟨desc, hmem, h7, rfl⟩
    · exact hr
  next => exact hr

theorem initialBitmap_buffer_aligned {memMap : List EfiMemoryDescriptor}
    (hwf : WellFormedMap memMap) : (initialBitmap memMap).buffer.toNat % 4096 = 0 := by
  rw [initialBitmap]
  rcases largestFreeMemSeg_cases memMap with h | ⟨desc, hmem, -, h⟩
  · rw [h]
    rfl
  · rw [h]
    exact hwf.aligned desc hmem

/-- The loop of `lock_pages` reaches the first `2 ^ 31` bytes of the bitmap, and the byte
after the bitmap when it is smaller. -/
theorem bitmapFrame_of_lt {memMap : List EfiMemoryDescriptor} (hwf : WellFormedMap memMap) {j : ℕ}
    (hj : j ≤ (initialBitmap memMap).size.toNat) (hlt : j < 2 ^ 31) :
    BitmapFrame memMap (frameIndex ((initialBitmap memMap).buffer + BitVec.ofNat 64 j)) := by
  have haligned := initialBitmap_buffer_aligned hwf
  have hsize := initialBitmap_size_lt memMap
  have hcount : ((initialBitmap memMap).size / 4096 + 1).toNat =
      (initialBitmap memMap).size.toNat / 4096 + 1 := by
    rw [BitVec.toNat_add, BitVec.toNat_udiv, show (4096 : BitVec 64).toNat = 4096 by rfl,
      show (1 : BitVec 64).toNat = 1 by rfl]
    omega
  have hi : (BitVec.ofNat 32 (j / 4096)).toNat = j / 4096 := by
    rw [BitVec.toNat_ofNat]
    omega
  refine ⟨BitVec.ofNat 32 (j / 4096), iter_of_lt (by omega) (by omega), ?_⟩
  -- the iteration of the page that byte `j` lies in
  rw [frameIndex_eq, frameIndex_eq, pageAt, BitVec.toNat_add, BitVec.toNat_add,
    pageOffset_of_lt (by omega), hi, BitVec.toNat_ofNat]
  omega

/-- Below 64 TiB every frame of the bitmap is locked. -/
theorem bitmapMarked_of_small (m : Mem) {memMap : List EfiMemoryDescriptor}
    (hwf : WellFormedMap memMap) (hsize : (initialBitmap memMap).size.toNat < 2 ^ 31) :
    BitmapMarked m memMap := by
  rintro k - - ⟨j, hj, rfl⟩
  exact Or.inr (Or.inr (bitmapFrame_of_lt hwf (Nat.le_of_lt hj) (hj.trans hsize)))

/-! ## A machine with 64 TiB -/

/-- A memory map of one conventional range of 64 TiB. -/
def sixtyFourTerabytes : List EfiMemoryDescriptor := [⟨7, 0x100000, 0x400000000⟩]

theorem sixtyFourTerabytes_wellFormed : WellFormedMap sixtyFourTerabytes where
  aligned := by decide
  fits := by decide
  disjoint := List.pairwise_singleton _ _

theorem initialBitmap_sixtyFourTerabytes :
    initialBitmap sixtyFourTerabytes = ⟨0x80000001, 0x100000⟩ := by decide +kernel

theorem holdsBitmap_sixtyFourTerabytes : HoldsBitmap sixtyFourTerabytes := by
  refine ⟨⟨7, 0x100000, 0x400000000⟩, by simp [sixtyFourTerabytes], rfl, ?_, ?_⟩
  · intro e he _
    obtain rfl := List.mem_singleton.mp he
    exact le_refl _
  · rw [initialBitmap_sixtyFourTerabytes]
    decide

/-- The last page of the bitmap is page `2 ^ 19`, which the loop misses. -/
theorem not_bitmapFrame_sixtyFourTerabytes : ¬ BitmapFrame sixtyFourTerabytes 0x80100 := by
  rintro ⟨i, hi, hframe⟩
  have hlt := hi.lt
  have hoff := pageOffset_eq i
  rw [initialBitmap_sixtyFourTerabytes] at hlt hframe
  have hcount : ((0x80000001 : BitVec 64) / 4096 + 1).toNat = 0x80001 := by decide
  rw [hcount] at hlt
  rw [frameIndex_eq, pageAt, BitVec.toNat_add, show (0x100000 : BitVec 64).toNat = 0x100000 by rfl]
    at hframe
  split at hoff <;> omega

/-- With 64 TiB the first request returns a frame that holds the last byte of the
bitmap. -/
theorem liveSafe_fails : ¬ ∀ (m : Mem) (memMap : List EfiMemoryDescriptor),
    WellFormedMap memMap → HoldsBitmap memMap → LiveSafe m memMap := by
  intro h
  have hsafe := h (fun _ => 0) sixtyFourTerabytes sixtyFourTerabytes_wellFormed
    holdsBitmap_sixtyFourTerabytes
  have hfree : ¬ InitMarked (fun _ => 0) sixtyFourTerabytes 0x80100 := by
    rintro (⟨⟨hbit, -⟩ | hswept, -⟩ | hlt | hbitmap)
    · simp [Bitmap.marked] at hbit
    · exact absurd ((loopFrames_zero_iff (by omega)).mp hswept).2 (by omega)
    · omega
    · exact not_bitmapFrame_sixtyFourTerabytes hbitmap
  obtain ⟨n, p, hp, hframe⟩ := exists_grant_of_not_initMarked (by omega)
    (by rw [initialBitmap_sixtyFourTerabytes]; decide) hfree
  refine (hsafe _ (Runs.iterate LiveStep.request n _)).2 p hp ?_
  rw [hframe, (grant_iterate _ _ _).2, initialBitmap_sixtyFourTerabytes]
  exact ⟨2 ^ 31, by decide, by decide⟩

end EtaOs
