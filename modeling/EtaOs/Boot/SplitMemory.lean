import EtaOs.Boot.Coverage
import Mathlib.Algebra.Order.BigOperators.Group.Finset

/-!
# A machine whose memory has a gap

Two conventional ranges, 16 MiB from address `0` on and 32 MiB from `2 ^ 44` on.  The larger one
holds the bitmap, which is then far above the sum of the two: the first loop of `prepare_mem` runs
over the first 48 MiB and does not come near it.  What maps the page of the bitmap is the loop over
the framebuffer, which ends just below that page and takes one page more than it needs.

So on this machine `prepare_mem` returns with a bitmap that is mapped to itself, in the part of the
address space in which the kernel will build its heap.
-/

namespace EtaOs

open ByteMemory IntLoop RadixTree

/-- 16 MiB from address `0` on, 32 MiB from `2 ^ 44` on, a kernel at 2 MiB, and a page of
framebuffer below `2 ^ 44`. -/
def splitMemory : BootInfo where
  memMap := [⟨7, 0, 0x1000⟩, ⟨7, 0x100000000000, 0x2000⟩]
  baseAdress := 0xffffffff000
  bufferSize := 0x1000
  kernelStart := 0x200000
  kernelEnd := 0x204000

theorem splitMemory_wellFormed : WellFormedMap splitMemory.memMap := by
  refine ⟨by decide, by decide, List.pairwise_pair.mpr fun k hk => ?_⟩
  obtain ⟨⟨-, hlt⟩, hge, -⟩ := hk
  simp at hlt hge
  omega

theorem totalMem_splitMemory : totalMem splitMemory.memMap = 0x3000000 := by decide +kernel

theorem totalFrames_splitMemory : totalFrames splitMemory.memMap = 0x3000 := by
  rw [totalFrames, totalMem_splitMemory]
  rfl

theorem initialBitmap_splitMemory :
    initialBitmap splitMemory.memMap = ⟨0x601, 0x100000000000⟩ := by decide +kernel

theorem holdsBitmap_splitMemory : HoldsBitmap splitMemory.memMap := by
  refine ⟨⟨7, 0x100000000000, 0x2000⟩, by decide, rfl, by decide, ?_⟩
  rw [initialBitmap_splitMemory]
  decide

theorem reach_splitMemory : reach splitMemory.memMap = 0x601 := by
  rw [reach, initialBitmap_splitMemory]
  rfl

/-- The bitmap lies in the first frame of the second range. -/
theorem bitmapFrame_splitMemory {k : ℕ} (h : BitmapFrame splitMemory.memMap k) : k = 2 ^ 32 := by
  rw [BitmapFrame, initialBitmap_splitMemory, loopFrames_iff (by decide) (by decide)] at h
  simp at h
  omega

/-- The frames that the framebuffer locks are beyond the reach of the allocator. -/
theorem loopFrames_splitMemory {k : ℕ}
    (h : LoopFrames splitMemory.baseAdress (frameBufPages splitMemory) k) : 0xffffffff ≤ k := by
  have hpages : LoopFrames 0xffffffff000 ((0x1000 + 4096) / 4096 + 1) k := h
  rw [loopFrames_iff (by decide) (by decide)] at hpages
  exact hpages.1

/-- The frames of the second megabyte are left unmarked before paging. -/
theorem unmarked_splitMemory (m : Mem) : Finset.Ico 0x100 0x200 ⊆
    unmarked splitMemory.memMap (fun k => 0x601 ≤ k) (beforePaging m splitMemory) := by
  intro k hk
  obtain ⟨hge, hlt⟩ := Finset.mem_Ico.mp hk
  have hlast : (initialBitmap splitMemory.memMap).last = 0x3008 := by
    rw [initialBitmap_last, initialBitmap_splitMemory]
    rfl
  have hlength : splitMemory.memMap.length ≤ 2 ^ 31 := by decide
  refine mem_unmarked.mpr ⟨by rw [reach_splitMemory]; omega, ?_, by omega⟩
  refine marked_of_released (by omega) ⟨⟨7, 0, 0x1000⟩, (entryRead_iff hlength).mpr (by decide),
    rfl, ?_⟩ hge (fun hbitmap => ?_) fun hkernel => ?_
  · rw [loopFrames_iff (by decide) (by decide)]
    simp
    omega
  · have hframe := bitmapFrame_splitMemory hbitmap
    omega
  · have hpages : LoopFrames 0x200000 ((0x204000 - 0x200000) / 4096 + 1) k := hkernel
    rw [loopFrames_iff (by decide) (by decide)] at hpages
    have hge' : 0x200 ≤ k := hpages.1
    omega

/-- The paths of the tables for the first 48 MiB, and for the two pages around `2 ^ 44`. -/
def splitPaths : Finset (List (BitVec 9)) :=
  ((Finset.range 24).biUnion fun j => pathsOf (BitVec.ofNat 64 (2 ^ 21 * j))) ∪
    (pathsOf 0xffffffff000 ∪ pathsOf 0x100000000000)

/-- The addresses of 2 MiB share their tables. -/
theorem pathsOf_congr {v w : BitVec 64} (h : v.toNat / 2 ^ 21 = w.toNat / 2 ^ 21) :
    pathsOf v = pathsOf w := by
  have hindex : ∀ level, 1 ≤ level → level ≤ 3 → tableIndex v level = tableIndex w level := by
    intro level h1 h3
    have hcases : level = 1 ∨ level = 2 ∨ level = 3 := by omega
    apply BitVec.eq_of_toNat_eq
    rw [tableIndex_toNat, tableIndex_toNat]
    rcases hcases with rfl | rfl | rfl <;> (simp; omega)
  rw [pathsOf, pathsOf, hindex 3 (by decide) (by decide), hindex 2 (by decide) (by decide),
    hindex 1 (by decide) (by decide)]

theorem card_pathsOf_le (v : BitVec 64) : (pathsOf v).card ≤ 3 := Finset.card_le_three

theorem card_splitPaths : splitPaths.card ≤ 78 :=
  calc splitPaths.card
      ≤ ((Finset.range 24).biUnion fun j => pathsOf (BitVec.ofNat 64 (2 ^ 21 * j))).card +
          ((pathsOf 0xffffffff000).card + (pathsOf 0x100000000000).card) :=
        (Finset.card_union_le _ _).trans (Nat.add_le_add_left (Finset.card_union_le _ _) _)
    _ ≤ (Finset.range 24).card * 3 + (3 + 3) := Nat.add_le_add
        (Finset.card_biUnion_le_card_mul _ _ _ fun _ _ => card_pathsOf_le _)
        (Nat.add_le_add (card_pathsOf_le _) (card_pathsOf_le _))

theorem frameBufEnd_splitMemory : (frameBufEnd splitMemory).toNat = 0x100000001000 := by decide

theorem visited_splitMemory_lt (x : BitVec 64)
    (hx : Visited splitMemory.baseAdress (frameBufEnd splitMemory) x) : x.toNat < 2 ^ 48 := by
  have hlt := hx.2.2
  rw [frameBufEnd_splitMemory] at hlt
  omega

/-- The addresses that `prepare_mem` maps have their tables at these paths. -/
theorem pathsIn_splitMemory {i : BitVec 64}
    (h : Visited 0 (totalMem splitMemory.memMap) i ∨
      Visited splitMemory.baseAdress (frameBufEnd splitMemory) i) : PathsIn splitPaths i := by
  rw [pathsIn_iff]
  rcases h with ⟨-, -, hlt⟩ | ⟨hge, -, hlt⟩
  · rw [totalMem_splitMemory] at hlt
    have hlt' : i.toNat < 0x3000000 := hlt
    have hsame : pathsOf i = pathsOf (BitVec.ofNat 64 (2 ^ 21 * (i.toNat / 2 ^ 21))) := by
      refine pathsOf_congr ?_
      rw [BitVec.toNat_ofNat]
      omega
    rw [hsame]
    exact (Finset.subset_biUnion_of_mem
      (fun j => pathsOf (BitVec.ofNat 64 (2 ^ 21 * j)))
      (Finset.mem_range.mpr (by omega))).trans Finset.subset_union_left
  · have hge' : 0xffffffff000 ≤ i.toNat := hge
    rw [frameBufEnd_splitMemory] at hlt
    refine Finset.Subset.trans ?_ Finset.subset_union_right
    rcases Nat.lt_or_ge i.toNat (2 ^ 44) with hbelow | habove
    · rw [pathsOf_congr (w := 0xffffffff000) (by simp; omega)]
      exact Finset.subset_union_left
    · rw [pathsOf_congr (w := 0x100000000000) (by simp; omega)]
      exact Finset.subset_union_right

/-- None of them begins with entry `1` of the PML4. -/
theorem tableIndex_splitMemory {i : BitVec 64}
    (h : Visited 0 (totalMem splitMemory.memMap) i ∨
      Visited splitMemory.baseAdress (frameBufEnd splitMemory) i) : tableIndex i 3 ≠ 1 := by
  intro hfirst
  have hindex := congrArg BitVec.toNat hfirst
  rw [tableIndex_toNat] at hindex
  simp at hindex
  rcases h with ⟨-, -, hlt⟩ | ⟨hge, -, hlt⟩
  · rw [totalMem_splitMemory] at hlt
    have hlt' : i.toNat < 0x3000000 := hlt
    omega
  · have hge' : 0xffffffff000 ≤ i.toNat := hge
    rw [frameBufEnd_splitMemory] at hlt
    omega

theorem frameBufInReach_splitMemory : FrameBufInReach splitMemory := by
  refine frameBufInReach_of_small ?_
  rw [initialBitmap_splitMemory]
  decide

/-- **`prepare_mem` returns**, with frames left. -/
theorem prepareMem_splitMemory (m : Mem) :
    ∃ s, prepareMem (bootKernel m) splitMemory = some s ∧
      Supply splitMemory.memMap (pml4 m splitMemory) splitPaths (fun k => 0x601 ≤ k) 0 s := by
  have hend : (frameBufEnd splitMemory).toNat ≤ 2 ^ 64 - 4096 := by
    rw [frameBufEnd_splitMemory]
    omega
  obtain ⟨s, hrun⟩ := prepareMem_isSome m splitMemory hend
  have hpaths := card_splitPaths
  have hcard := Finset.card_le_card (unmarked_splitMemory m)
  rw [Nat.card_Ico] at hcard
  refine ⟨s, hrun, supply_of_room splitMemory_wellFormed frameBufInReach_splitMemory (by omega)
    (fun k hk h => ?_) (fun _ h => pathsIn_splitMemory (Or.inl h))
    (fun _ h => pathsIn_splitMemory (Or.inr h)) hrun⟩
  have hge := loopFrames_splitMemory h
  omega

end EtaOs
