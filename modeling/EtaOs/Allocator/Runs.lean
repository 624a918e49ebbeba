import EtaOs.Library.Runs
import EtaOs.Allocator.Init

/-!
# Runs of the allocator

What holds in every state that the allocator reaches after `read_efi_memory_map`.

A run is a sequence of calls of the public operations, with any arguments and in any order, so what
is proved of it holds whoever calls the allocator.  Completeness is asked of the state before a
request: a request that returns `NULL` should mean that nothing is left to return.

* `requestPage_complete_iff`: when a request that returns `NULL` means that no managed
  frame is left.  The scan stops at the number of bytes of the bitmap, so it misses the
  frames from there to the number of its bits.
* `WellFormedMap`, `HoldsBitmap`, `Conventional`: memory maps and their frames.
* `grant`, `exists_grant`: requests in a row return every unmarked frame they can reach.
-/

namespace EtaOs

open ByteMemory IntLoop Relation

/-! ## Memory maps -/

/-- Frame `k` belongs to the range of the descriptor. -/
def EfiMemoryDescriptor.Holds (desc : EfiMemoryDescriptor) (k : ℕ) : Prop :=
  desc.physAddr.toNat / 4096 ≤ k ∧ k < desc.physAddr.toNat / 4096 + desc.numPages.toNat

/-- Frame `k` belongs to a descriptor of type 7, conventional memory. -/
def Conventional (memMap : List EfiMemoryDescriptor) (k : ℕ) : Prop :=
  ∃ desc ∈ memMap, desc.type = 7 ∧ desc.Holds k

/-- A memory map of page-aligned, pairwise disjoint ranges of the address space. -/
structure WellFormedMap (memMap : List EfiMemoryDescriptor) : Prop where
  aligned : ∀ desc ∈ memMap, desc.physAddr.toNat % 4096 = 0
  fits : ∀ desc ∈ memMap, desc.physAddr.toNat + 4096 * desc.numPages.toNat ≤ 2 ^ 64
  disjoint : memMap.Pairwise fun d e => ∀ k, ¬ (d.Holds k ∧ e.Holds k)

/-- The largest conventional range can hold the bitmap. -/
def HoldsBitmap (memMap : List EfiMemoryDescriptor) : Prop :=
  ∃ desc ∈ memMap, desc.type = 7 ∧
    (∀ e ∈ memMap, e.type = 7 → e.numPages.toNat ≤ desc.numPages.toNat) ∧
    (initialBitmap memMap).size.toNat ≤ 4096 * desc.numPages.toNat

/-! ## Operations in any order -/

/-- A call of a public operation of the allocator. -/
inductive AllocOp where
  | requestPage
  | lockPage (addr : BitVec 64)
  | lockPages (addr pageCount : BitVec 64)
  | freePage (addr : BitVec 64)
  | freePages (addr pageCount : BitVec 64)

/-- The state after a call. -/
def AllocOp.apply (s : Kernel) : AllocOp → Kernel
  | requestPage => (EtaOs.requestPage s).2
  | lockPage addr => EtaOs.lockPage s addr
  | lockPages addr pageCount => EtaOs.lockPages s addr pageCount
  | freePage addr => EtaOs.freePage s addr
  | freePages addr pageCount => EtaOs.freePages s addr pageCount

/-- Every operation keeps the hint invariant and the bitmap header. -/
theorem AllocOp.hintInv (s : Kernel) (op : AllocOp) (h : HintInv s) : HintInv (op.apply s) := by
  cases op with
  | requestPage => exact h.requestPage
  | lockPage addr => exact h.takePage .used addr
  | lockPages addr pageCount => exact h.forPages (fun t a ht => ht.takePage .used a) addr pageCount
  | freePage addr => exact h.givePage .used addr
  | freePages addr pageCount => exact h.forPages (fun t a ht => ht.givePage .used a) addr pageCount

/-- The state after a sequence of calls. -/
def runOps (s : Kernel) (ops : List AllocOp) : Kernel := ops.foldl AllocOp.apply s

/-- The hint invariant holds in every reachable state. -/
theorem hintInv_runOps (m : Mem) (memMap : List EfiMemoryDescriptor) (ops : List AllocOp) :
    HintInv (runOps (readEfiMemoryMap (bootKernel m) memMap) ops) :=
  Runs.foldl_invariant (fun s op h => AllocOp.hintInv s op h) ops hintInv_readEfiMemoryMap

theorem AllocOp.pageBitmap (s : Kernel) (op : AllocOp) :
    (op.apply s).alloc.pageBitmap = s.alloc.pageBitmap := by
  cases op with
  | requestPage => exact (keeps_requestPage s).pageBitmap
  | lockPage addr => exact (keeps_takePage .used s addr).pageBitmap
  | lockPages addr pageCount =>
      exact (keeps_forPages (keeps_takePage .used) s addr pageCount).pageBitmap
  | freePage addr => exact (keeps_givePage .used s addr).pageBitmap
  | freePages addr pageCount =>
      exact (keeps_forPages (keeps_givePage .used) s addr pageCount).pageBitmap

theorem runOps_pageBitmap (m : Mem) (memMap : List EfiMemoryDescriptor) (ops : List AllocOp) :
    (runOps (readEfiMemoryMap (bootKernel m) memMap) ops).alloc.pageBitmap =
      initialBitmap memMap :=
  Runs.foldl_invariant (P := fun s : Kernel => s.alloc.pageBitmap = initialBitmap memMap)
    (fun s op h => (AllocOp.pageBitmap s op).trans h) ops (readEfiMemoryMap_pageBitmap m memMap)

/-- A request that returns `NULL` means that every managed frame is marked. -/
def RequestComplete (s : Kernel) : Prop :=
  (requestPage s).1 = 0 → ∀ k < 8 * s.alloc.pageBitmap.size.toNat, s.marked k = true

theorem HintInv.requestComplete_iff {s : Kernel} (h : HintInv s) :
    RequestComplete s ↔
      (∀ k < 8 * s.alloc.pageBitmap.size.toNat, s.marked k = true) ∨
        (s.marked 0 = true ∧ ∃ k < s.alloc.pageBitmap.size.toNat, s.marked k = false) := by
  rw [RequestComplete, requestPage_eq_zero_iff h]
  constructor
  · intro hc
    by_cases hall : ∀ k < s.alloc.pageBitmap.size.toNat, s.marked k = true
    · exact Or.inl (hc (Or.inl hall))
    · push Not at hall
      obtain ⟨k, hk, hfree⟩ := hall
      cases h0 : s.marked 0 with
      | true => exact Or.inr ⟨rfl, k, hk, by simpa using hfree⟩
      | false => exact Or.inl (hc (Or.inr ⟨h0, Nat.zero_lt_of_lt hk⟩))
  · rintro (hall | ⟨h0, k, hk, hfree⟩) hnull
    · exact hall
    · rcases hnull with hall | ⟨h0', -⟩
      · rw [hall k hk] at hfree
        exact Bool.noConfusion hfree
      · rw [h0] at h0'
        exact Bool.noConfusion h0'

/-- **When `request_page` is complete.**  In a reachable state a `NULL` result means
that the bitmap is full exactly when it is full already, or frame `0` is marked and one
of the first `size` frames is not. -/
theorem requestPage_complete_iff (m : Mem) (memMap : List EfiMemoryDescriptor)
    (ops : List AllocOp) :
    RequestComplete (runOps (readEfiMemoryMap (bootKernel m) memMap) ops) ↔
      (∀ k < 8 * (initialBitmap memMap).size.toNat,
        (runOps (readEfiMemoryMap (bootKernel m) memMap) ops).marked k = true) ∨
      ((runOps (readEfiMemoryMap (bootKernel m) memMap) ops).marked 0 = true ∧
        ∃ k < (initialBitmap memMap).size.toNat,
          (runOps (readEfiMemoryMap (bootKernel m) memMap) ops).marked k = false) := by
  rw [← runOps_pageBitmap m memMap ops]
  exact (hintInv_runOps m memMap ops).requestComplete_iff

/-- The mark of a managed frame after initialisation. -/
theorem marked_eq_false_iff {m : Mem} {memMap : List EfiMemoryDescriptor} {k : ℕ}
    (hk : k < 8 * (initialBitmap memMap).size.toNat) :
    (readEfiMemoryMap (bootKernel m) memMap).marked k = false ↔ ¬ InitMarked m memMap k := by
  have hlast := initialBitmap_last memMap
  rw [← marked_readEfiMemoryMap (m := m) (by omega), Bool.not_eq_true]

/-! ## Requests in a row -/

/-- One request, with the frames returned so far. -/
def grant (c : Kernel × List (BitVec 64)) : Kernel × List (BitVec 64) :=
  ((requestPage c.1).2, if (requestPage c.1).1 = 0 then c.2 else (requestPage c.1).1 :: c.2)

/-- A frame in the list after a request was there before, or it was unmarked. -/
theorem mem_grant {s : Kernel} {given : List (BitVec 64)} (h : HintInv s) {p : BitVec 64}
    (hp : p ∈ (grant (s, given)).2) :
    p ∈ given ∨ (frameIndex p < s.alloc.pageBitmap.size.toNat ∧ s.marked (frameIndex p) = false ∧
      frameIndex p ≠ 0) := by
  rw [grant] at hp
  by_cases h0 : (requestPage s).1 = 0
  · rw [if_pos h0] at hp
    exact Or.inl hp
  · rw [if_neg h0] at hp
    rcases List.mem_cons.mp hp with rfl | hp
    · obtain ⟨i, hi0, hi, hfree, heq⟩ := requestPage_ne_zero h h0
      have hsize := h.size_lt
      have hframe : frameIndex (requestPage s).1 = i.toNat := by
        rw [heq]
        exact frameIndex_mul (by omega)
      rw [hframe]
      refine Or.inr ⟨hi, hfree, fun hz => hi0 (BitVec.eq_of_toNat_eq hz)⟩
    · exact Or.inl hp

/-- Requests alone return every unmarked frame they can reach.  The induction is on the
number of frames below it that may still be unmarked. -/
theorem exists_grant {k : ℕ} (hk0 : k ≠ 0) : ∀ (d : ℕ) (s : Kernel) (given : List (BitVec 64)),
    HintInv s → k < s.alloc.pageBitmap.size.toNat → s.marked k = false →
    (∀ j < k - d, s.marked j = true) →
    ∃ n, ∃ p ∈ (grant^[n] (s, given)).2, frameIndex p = k := by
  intro d
  induction d with
  | zero =>
      intro s given hinv hk hfree hbelow
      have hframe := frameIndex_requestPage hinv hk hfree hbelow
      have hne : (requestPage s).1 ≠ 0 := by
        intro h0
        rw [h0] at hframe
        exact hk0 (by rw [← hframe]; rfl)
      refine ⟨1, (requestPage s).1, ?_, hframe⟩
      rw [Function.iterate_one, grant, if_neg hne]
      exact List.mem_cons_self
  | succ d ih =>
      intro s given hinv hk hfree hbelow
      by_cases hnext : s.marked (k - (d + 1)) = true
      · -- one more frame below `k` is marked already
        refine ih s given hinv hk hfree fun j hj => ?_
        by_cases hj' : j = k - (d + 1)
        · rw [hj']
          exact hnext
        · exact hbelow j (by omega)
      · have hlast := hinv.last_eq
        by_cases hkd : k ≤ d
        · exact ih s given hinv hk hfree fun j hj => absurd hj (by omega)
        -- the request takes that frame
        have hclear : s.marked (k - (d + 1)) = false := Bool.eq_false_iff.mpr hnext
        have hframe := frameIndex_requestPage hinv (by omega) hclear hbelow
        have hmark : ∀ j ≤ s.last, (requestPage s).2.marked j = true ↔
            s.marked j = true ∨ k - (d + 1) = j := by
          intro j hj
          rw [marked_requestPage hinv hj, hframe]
          exact or_congr_right ⟨And.right, fun h => ⟨⟨k, hk, hfree⟩, h⟩⟩
        have hfree' : (requestPage s).2.marked k = false := by
          rw [← Bool.not_eq_true, hmark k (by omega), hfree]
          simp
          omega
        have hbelow' : ∀ j < k - d, (requestPage s).2.marked j = true := by
          intro j hj
          rw [hmark j (by omega)]
          by_cases hj' : k - (d + 1) = j
          · exact Or.inr hj'
          · exact Or.inl (hbelow j (by omega))
        obtain ⟨n, p, hp, hpk⟩ := ih (grant (s, given)).1 (grant (s, given)).2 hinv.requestPage
          (by rw [grant, (keeps_requestPage s).pageBitmap]; exact hk) hfree' hbelow'
        exact ⟨n + 1, p, by rwa [Function.iterate_succ_apply], hpk⟩

/-- Requests in a row keep the hint invariant and the bitmap header. -/
theorem grant_iterate (m : Mem) (memMap : List EfiMemoryDescriptor) (n : ℕ) :
    HintInv (grant^[n] (readEfiMemoryMap (bootKernel m) memMap, [])).1 ∧
      (grant^[n] (readEfiMemoryMap (bootKernel m) memMap, [])).1.alloc.pageBitmap =
        initialBitmap memMap := by
  induction n with
  | zero => exact ⟨hintInv_readEfiMemoryMap, readEfiMemoryMap_pageBitmap m memMap⟩
  | succ n ih =>
      rw [Function.iterate_succ_apply']
      exact ⟨ih.1.requestPage, (keeps_requestPage _).pageBitmap.trans ih.2⟩

/-- A frame that initialisation leaves unmarked among the first `size` frames is
returned after some number of requests. -/
theorem exists_grant_of_not_initMarked {m : Mem} {memMap : List EfiMemoryDescriptor} {k : ℕ}
    (hk0 : k ≠ 0) (hk : k < (initialBitmap memMap).size.toNat) (hfree : ¬ InitMarked m memMap k) :
    ∃ n, ∃ p ∈ (grant^[n] (readEfiMemoryMap (bootKernel m) memMap, [])).2, frameIndex p = k := by
  refine exists_grant hk0 k _ [] hintInv_readEfiMemoryMap ?_ ?_ ?_
  · rwa [readEfiMemoryMap_pageBitmap]
  · rwa [marked_eq_false_iff (by omega)]
  · intro j hj
    omega

/-! ## A machine with two megabytes -/

/-- A memory map of one conventional range, the first two megabytes. -/
def twoMegabytes : List EfiMemoryDescriptor := [⟨7, 0, 0x200⟩]

theorem twoMegabytes_wellFormed : WellFormedMap twoMegabytes where
  aligned := by decide
  fits := by decide
  disjoint := List.pairwise_singleton _ _

theorem initialBitmap_twoMegabytes : initialBitmap twoMegabytes = ⟨65, 0⟩ := by decide +kernel

theorem holdsBitmap_twoMegabytes : HoldsBitmap twoMegabytes := by
  refine ⟨⟨7, 0, 0x200⟩, by simp [twoMegabytes], rfl, ?_, ?_⟩
  · intro e he _
    obtain rfl := List.mem_singleton.mp he
    exact le_refl _
  · rw [initialBitmap_twoMegabytes]
    decide

/-- The frames that initialisation leaves free are those from the first megabyte to
the second, and the spare bits of the last byte. -/
theorem initMarked_twoMegabytes (m : Mem) {k : ℕ} (hk : k < 520) :
    InitMarked m twoMegabytes k ↔ k < 0x100 ∨ k = 512 := by
  have hleft : ¬ LeftOver m twoMegabytes k := by
    rintro ⟨-, h⟩
    rw [initialBitmap_twoMegabytes] at h
    exact h ⟨by simp; omega, by omega⟩
  have hswept : Swept twoMegabytes k ↔ k < 513 := by
    have htotal : totalMem twoMegabytes = 0x200000 := by decide +kernel
    rw [Swept, htotal, loopFrames_iff (by decide) (by decide)]
    simp
  have hreleased : Released twoMegabytes k ↔ k < 512 := by
    have hloop : LoopFrames 0 0x200 k ↔ k < 512 := by
      rw [loopFrames_iff (by decide) (by decide)]
      simp
    constructor
    · rintro ⟨desc, hread, -, hdesc⟩
      obtain rfl := List.mem_singleton.mp hread.mem
      exact hloop.mp hdesc
    · intro h
      exact ⟨⟨7, 0, 0x200⟩, (entryRead_iff (by decide)).mpr (List.mem_singleton.mpr rfl), rfl,
        hloop.mpr h⟩
  have hbitmap : BitmapFrame twoMegabytes k ↔ k < 1 := by
    rw [BitmapFrame, initialBitmap_twoMegabytes, loopFrames_iff (by decide) (by decide)]
    simp
  simp only [InitMarked, hleft, hswept, hreleased, hbitmap, false_or]
  omega

/-- With two megabytes the first request already returns `NULL`: the 65 frames it scans
are below the first megabyte, and the free ones are above it. -/
theorem requestPage_incomplete : ¬ ∀ (m : Mem) (memMap : List EfiMemoryDescriptor),
    WellFormedMap memMap → HoldsBitmap memMap → ∀ ops : List AllocOp,
      RequestComplete (runOps (readEfiMemoryMap (bootKernel m) memMap) ops) := by
  intro h
  have hc := h (fun _ => 0) twoMegabytes twoMegabytes_wellFormed holdsBitmap_twoMegabytes []
  have hlast : (initialBitmap twoMegabytes).last = 520 := by
    rw [initialBitmap_twoMegabytes]
    rfl
  have hsize : (runOps (readEfiMemoryMap (bootKernel fun _ => 0) twoMegabytes)
      []).alloc.pageBitmap.size.toNat = 65 := by
    rw [runOps_pageBitmap, initialBitmap_twoMegabytes]
    rfl
  have hmarked : ∀ k < 520, (runOps (readEfiMemoryMap (bootKernel fun _ => 0) twoMegabytes)
      []).marked k = true ↔ k < 0x100 ∨ k = 512 := by
    intro k hk
    rw [runOps, List.foldl_nil, marked_readEfiMemoryMap (by omega), initMarked_twoMegabytes _ hk]
  rw [(hintInv_runOps _ twoMegabytes []).requestComplete_iff, hsize] at hc
  rcases hc with hall | ⟨-, k, hk, hfree⟩
  · have := (hmarked 0x100 (by omega)).mp (hall 0x100 (by omega))
    omega
  · rw [(hmarked k (by omega)).mpr (Or.inl (by omega))] at hfree
    exact Bool.noConfusion hfree

end EtaOs
