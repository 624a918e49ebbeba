import EtaOs.Boot.Run
import EtaOs.Boot.Supply
import Mathlib.Data.FinEnum
import Mathlib.Data.Fintype.BigOperators

/-!
# The requests of `prepare_mem` are granted

A request that does not return `NULL` returns one of the first `size` frames, which are all
within reach below `2 ^ 34` frames.  On a larger machine more frames below `2 ^ 34` are left
unmarked by the initialisation than there are tables in a tree of four levels, so there the
requests of `prepare_mem` stay within reach as well, and none of them returns `NULL`.

Why this is worth a module: a request that is granted returns a frame whose marks lie in the locked
part of the bitmap, and all that keeps tables and bitmap apart is stated for such frames.  What is
known of a run is only that no request has returned `NULL`.  Between the two lies a count, of the
tables that a tree of four levels can have against the frames that are left.

* `granted_of_room`: the requests are granted when the unmarked frames outnumber the paths.
* `granted_of_ne_zero`: the requests are granted when none returns `NULL`.
* `prepareMem_tables`: the tables and the walks when the PML4 is loaded.
-/

namespace EtaOs

open ByteMemory IntLoop RadixTree

variable {m : Mem} {info : BootInfo} {s' : Kernel}

/-- The number of frames that `prepare_mem` locks for the framebuffer. -/
def frameBufPages (info : BootInfo) : BitVec 64 := (info.bufferSize + 4096) / 4096 + 1

/-- The frames that are locked for the framebuffer have their marks in the locked part of
the bitmap, when they have marks. -/
def FrameBufInReach (info : BootInfo) : Prop :=
  ∀ k ≤ (initialBitmap info.memMap).last,
    LoopFrames info.baseAdress (frameBufPages info) k → k < 2 ^ 34

/-- A bitmap of less than 2 GiB is locked as a whole. -/
theorem frameBufInReach_of_small (h : (initialBitmap info.memMap).size.toNat < 2 ^ 31) :
    FrameBufInReach info := by
  intro k hk _
  rw [initialBitmap_last] at hk
  omega

/-! ## The cleared PML4 -/

/-- The request for the PML4 is on the record. -/
theorem mem_requests_pml4 (hrun : prepareMem (bootKernel m) info = some s') :
    nextRequest bootAllocator (beforePaging m info) ∈ s'.requests := by
  obtain ⟨s₁, s₂, _, _, -, h1, -, h2, -, rfl⟩ := prepareMem_calls hrun
  refine (mapCalls_suffix h2).subset ?_
  rw [(keeps_lockFrameBuffer info s₁).requests]
  refine (mapCalls_suffix h1).subset ?_
  rw [clearedPml4_requests]
  exact List.mem_singleton_self _

section Cleared

variable (hwf : WellFormedMap info.memMap)
  (hOk : Granted info.memMap (nextRequest bootAllocator (beforePaging m info)))

include hwf hOk

/-- Clearing the PML4 leaves the marks as the request for it made them. -/
theorem alloc_clearedPml4 : AllocInv info.memMap (clearedPml4 m info) ∧
    ∀ k < reach info.memMap,
      (clearedPml4 m info).marked k = (requestPage (beforePaging m info)).2.marked k := by
  have halloc := allocInv_beforePaging m info
  obtain ⟨hf, -, -, hnot⟩ := halloc.request_frame hOk
  refine TablesInv.alloc_of_write hwf (clearedPml4 m info) (halloc.requestPage hOk) hf hf hnot hnot
    rfl fun x hx _ => ?_
  show fill _ (pml4 m info) 4096 0 x = _
  unfold fill
  exact if_neg hx

theorem tablesInv_clearedPml4 : TablesInv info.memMap (pml4 m info) (clearedPml4 m info) := by
  obtain ⟨hf, -, hmarked, hnot⟩ := (allocInv_beforePaging m info).request_frame hOk
  obtain ⟨halloc, hmark⟩ := alloc_clearedPml4 hwf hOk
  refine ⟨halloc, separated_of_root_empty (edge_clearedPml4 m info), fun t ht => ?_, fun r hr => ?_⟩
  · obtain rfl := (isTable_of_root_empty (edge_clearedPml4 m info)).mp ht
    have hlt : frameIndex (pml4 m info) < reach info.memMap := hOk.2
    refine ⟨hlt, ?_, hnot⟩
    rw [hmark _ hlt]
    exact hmarked
  · rw [clearedPml4_requests] at hr
    obtain rfl := List.mem_singleton.mp hr
    exact ⟨hf, hOk⟩

end Cleared

/-! ## Room for all paths -/

section Room

variable {S : Finset (List (BitVec 9))} {L : ℕ → Prop} [DecidablePred L] {n : ℕ}
  (hwf : WellFormedMap info.memMap) (hfb : FrameBufInReach info)
  (hroom : S.card + n + 1 < (unmarked info.memMap L (beforePaging m info)).card)

include hwf hroom

theorem supply_clearedPml4 : Supply info.memMap (pml4 m info) S L n (clearedPml4 m info) ∧
    IsFrame (pml4 m info) := by
  have halloc := allocInv_beforePaging m info
  obtain ⟨k, hk⟩ := Finset.card_pos.mp (Nat.zero_lt_of_lt hroom)
  obtain ⟨hlt, hfree, -⟩ := mem_unmarked.mp hk
  have hOk := halloc.granted hlt hfree
  have hcard := card_unmarked_requestPage (L := L) halloc
  refine ⟨⟨tablesInv_clearedPml4 hwf hOk, ∅, Finset.empty_subset S, ?_, ?_⟩,
    (halloc.request_frame hOk).1⟩
  · exact fun p hp => absurd hp (Finset.notMem_empty p)
  · rw [unmarked_congr (alloc_clearedPml4 hwf hOk).2, Finset.card_empty]
    omega

include hfb

/-- **Enough unmarked frames for all paths.**  The unmarked frames still outnumber the
paths when the PML4 is loaded. -/
theorem supply_of_room
    (hL : ∀ k < reach info.memMap, LoopFrames info.baseAdress (frameBufPages info) k → L k)
    (hmem : ∀ i, Visited 0 (totalMem info.memMap) i → PathsIn S i)
    (hframe : ∀ i, Visited info.baseAdress (frameBufEnd info) i → PathsIn S i)
    (hrun : prepareMem (bootKernel m) info = some s') :
    Supply info.memMap (pml4 m info) S L n s' := by
  obtain ⟨hsupply, hroot⟩ := supply_clearedPml4 hwf hroom
  have hM := mapInv_supply (S := S) (L := L) (n := n) hwf (mapInv_boot hwf hroot)
  obtain ⟨s₂, ⟨-, hI⟩, rfl, -⟩ := prepareMem_run hM
    ⟨⟨hsupply.tables, clearedPml4_cr3 m info⟩, hsupply⟩
    (fun s hs => ⟨⟨⟨hs.2.tables.lockPages hwf hroot hfb,
      (keeps_lockFrameBuffer info s).cr3.trans hs.1.2⟩, hs.2.lockPages hwf hroot hfb hL⟩,
      walk_congr (hs.2.tables.sameOn_lockPages hwf hroot hfb)⟩)
    (fun i hi => ⟨trivial, hmem i hi⟩) (fun i hi => ⟨trivial, hframe i hi⟩) hrun
    fun _ _ => trivial
  exact ⟨hI.tables.congr_cr3 _, hI.room⟩

/-- No request of `prepare_mem` returns `NULL` when the unmarked frames outnumber the paths
of the mapped addresses. -/
theorem granted_of_room
    (hL : ∀ k < reach info.memMap, LoopFrames info.baseAdress (frameBufPages info) k → L k)
    (hmem : ∀ i, Visited 0 (totalMem info.memMap) i → PathsIn S i)
    (hframe : ∀ i, Visited info.baseAdress (frameBufEnd info) i → PathsIn S i)
    (hrun : prepareMem (bootKernel m) info = some s') :
    ∀ r ∈ s'.requests, Granted info.memMap r :=
  fun r hr => ((supply_of_room hwf hfb hroom hL hmem hframe hrun).tables.given r hr).2

end Room

/-! ## Machines with more than `2 ^ 34` frames to scan -/

/-- The lists of table indices of a length. -/
@[irreducible] def pathsOfLength (n : ℕ) : Finset (List (BitVec 9)) :=
  (Finset.univ : Finset (List.Vector (BitVec 9) n)).image List.Vector.toList

theorem mem_pathsOfLength (p : List (BitVec 9)) : p ∈ pathsOfLength p.length := by
  unfold pathsOfLength
  exact Finset.mem_image.mpr ⟨⟨p, rfl⟩, Finset.mem_univ _, rfl⟩

theorem card_pathsOfLength (n : ℕ) : (pathsOfLength n).card ≤ 512 ^ n := by
  unfold pathsOfLength
  refine Finset.card_image_le.trans ?_
  rw [Finset.card_univ, card_vector, ← FinEnum.card_eq_fintypeCard, FinEnum.card_bitVec]
  exact le_refl _

/-- The paths of all tables below the PML4. -/
@[irreducible] def tablePaths : Finset (List (BitVec 9)) :=
  pathsOfLength 1 ∪ pathsOfLength 2 ∪ pathsOfLength 3

theorem pathsIn_tablePaths (v : BitVec 64) : PathsIn tablePaths v := by
  intro pre i _ hlen
  have hmem := mem_pathsOfLength (pre ++ [i])
  rw [List.length_append, List.length_singleton] at hmem
  have hcases : pre.length = 0 ∨ pre.length = 1 ∨ pre.length = 2 := by omega
  unfold tablePaths
  rcases hcases with h | h | h
  · rw [h] at hmem
    exact Finset.mem_union_left _ (Finset.mem_union_left _ hmem)
  · rw [h] at hmem
    exact Finset.mem_union_left _ (Finset.mem_union_right _ hmem)
  · rw [h] at hmem
    exact Finset.mem_union_right _ hmem

theorem card_tablePaths : tablePaths.card < 2 ^ 28 := by
  unfold tablePaths
  calc (pathsOfLength 1 ∪ pathsOfLength 2 ∪ pathsOfLength 3).card
      ≤ (pathsOfLength 1 ∪ pathsOfLength 2).card + (pathsOfLength 3).card :=
        Finset.card_union_le _ _
    _ ≤ (pathsOfLength 1).card + (pathsOfLength 2).card + (pathsOfLength 3).card :=
        Nat.add_le_add_right (Finset.card_union_le _ _) _
    _ ≤ 512 ^ 1 + 512 ^ 2 + 512 ^ 3 :=
        Nat.add_le_add (Nat.add_le_add (card_pathsOfLength 1) (card_pathsOfLength 2))
          (card_pathsOfLength 3)
    _ < 2 ^ 28 := by omega

/-- The frames a range loop can visit: the product of its counter takes `2 ^ 20` values. -/
def loopRange (addr : BitVec 64) : Finset ℕ :=
  (Finset.range (2 ^ 20)).image fun n => frameIndex (pageAt addr (BitVec.ofNat 32 n))

theorem mem_loopRange {addr pageCount : BitVec 64} {k : ℕ} (h : LoopFrames addr pageCount k) :
    k ∈ loopRange addr := by
  obtain ⟨i, -, rfl⟩ := h
  have hmul : BitVec.ofNat 32 (i.toNat % 2 ^ 20) * 4096 = i * 4096 := by
    apply BitVec.eq_of_toNat_eq
    rw [BitVec.toNat_mul, BitVec.toNat_mul, BitVec.toNat_ofNat]
    simp only [BitVec.ofNat_eq_ofNat, BitVec.toNat_ofNat]
    omega
  refine Finset.mem_image.mpr ⟨i.toNat % 2 ^ 20, ?_, ?_⟩
  · exact Finset.mem_range.mpr (Nat.mod_lt _ (by decide))
  · rw [pageAt, hmul, pageAt]

theorem card_loopRange (addr : BitVec 64) : (loopRange addr).card ≤ 2 ^ 20 :=
  Finset.card_image_le.trans (Finset.card_range _).le

/-- The frames below `2 ^ 34` that may be marked before paging, or for the framebuffer. -/
def takenFrames (info : BootInfo) : Finset ℕ :=
  Finset.range (2 ^ 19) ∪ loopRange (initialBitmap info.memMap).buffer ∪
    loopRange info.kernelStart ∪ loopRange info.baseAdress

theorem card_takenFrames (info : BootInfo) : (takenFrames info).card ≤ 2 ^ 22 :=
  calc (takenFrames info).card
      ≤ (Finset.range (2 ^ 19)).card + (loopRange (initialBitmap info.memMap).buffer).card +
          (loopRange info.kernelStart).card + (loopRange info.baseAdress).card :=
        (Finset.card_union_le _ _).trans (Nat.add_le_add_right ((Finset.card_union_le _ _).trans
          (Nat.add_le_add_right (Finset.card_union_le _ _) _)) _)
    _ ≤ 2 ^ 19 + 2 ^ 20 + 2 ^ 20 + 2 ^ 20 :=
        Nat.add_le_add (Nat.add_le_add (Nat.add_le_add (Finset.card_range _).le
          (card_loopRange _)) (card_loopRange _)) (card_loopRange _)
    _ ≤ 2 ^ 22 := by omega

/-- Past `2 ^ 34` frames initialisation clears the marks below and sweeps `2 ^ 19` frames. -/
theorem not_initMarked_of_large (hsize : 2 ^ 34 < (initialBitmap info.memMap).size.toNat) {k : ℕ}
    (hk : k < 2 ^ 34) (hge : 2 ^ 19 ≤ k) (hbit : ¬ BitmapFrame info.memMap k) :
    ¬ InitMarked m info.memMap k := by
  rintro (⟨⟨-, hleft⟩ | hswept, -⟩ | hbios | hlocked)
  · exact hleft ⟨by omega, by omega⟩
  · exact absurd ((loopFrames_zero_iff (by omega)).mp hswept).2 (by omega)
  · omega
  · exact hbit hlocked

/-- Fewer paths than frames are left. -/
theorem room_of_large {paths taken free : ℕ} (hpaths : paths < 2 ^ 28) (htaken : taken ≤ 2 ^ 22)
    (hfree : 2 ^ 34 - taken ≤ free) : paths + 0 + 1 < free := by
  omega

theorem granted_of_large (hwf : WellFormedMap info.memMap) (hfb : FrameBufInReach info)
    (hsize : 2 ^ 34 < (initialBitmap info.memMap).size.toNat)
    (hrun : prepareMem (bootKernel m) info = some s') :
    ∀ r ∈ s'.requests, Granted info.memMap r := by
  classical
  have hreach : reach info.memMap = 2 ^ 34 := Nat.min_eq_right (Nat.le_of_lt hsize)
  have hlast := initialBitmap_last info.memMap
  have hsub : Finset.range (2 ^ 34) \ takenFrames info ⊆
      unmarked info.memMap (LoopFrames info.baseAdress (frameBufPages info))
        (beforePaging m info) := by
    intro k hk
    obtain ⟨hlt, hnot⟩ := Finset.mem_sdiff.mp hk
    rw [Finset.mem_range] at hlt
    unfold takenFrames at hnot
    simp only [Finset.mem_union, Finset.mem_range, not_or, not_lt] at hnot
    obtain ⟨⟨⟨hge, hbit⟩, hkernel⟩, hframe⟩ := hnot
    refine mem_unmarked.mpr ⟨hreach ▸ hlt, ?_, fun h => hframe (mem_loopRange h)⟩
    rw [← Bool.not_eq_true]
    intro hm
    have hle : k ≤ (readEfiMemoryMap (bootKernel m) info.memMap).last := by
      rw [Machine.last, readEfiMemoryMap_pageBitmap]
      omega
    rcases (marked_forPages_takePage hle).mp hm with hinit | hloop
    · exact not_initMarked_of_large hsize hlt hge (fun h => hbit (mem_loopRange h))
        ((marked_readEfiMemoryMap (by omega)).mp hinit)
    · exact hkernel (mem_loopRange hloop)
  have hdiff := Finset.le_card_sdiff (takenFrames info) (Finset.range (2 ^ 34))
  rw [Finset.card_range] at hdiff
  have hroom := room_of_large card_tablePaths (card_takenFrames info)
    (hdiff.trans (Finset.card_le_card hsub))
  exact granted_of_room (n := 0) hwf hfb hroom (fun _ _ h => h) (fun i _ => pathsIn_tablePaths i)
    (fun i _ => pathsIn_tablePaths i) hrun

/-- **When no request returns `NULL`, all requests of `prepare_mem` are granted.** -/
theorem granted_of_ne_zero (hwf : WellFormedMap info.memMap) (hfb : FrameBufInReach info)
    (hrun : prepareMem (bootKernel m) info = some s') (hnull : ∀ r ∈ s'.requests, r.frame ≠ 0) :
    ∀ r ∈ s'.requests, Granted info.memMap r := by
  rcases Nat.lt_or_ge (2 ^ 34) (initialBitmap info.memMap).size.toNat with hsize | hsize
  · exact granted_of_large hwf hfb hsize hrun
  · intro r hr
    obtain ⟨s₁, s₂, _, _, -, -, -, -, hrec, rfl⟩ := prepareMem_calls hrun
    refine ⟨hnull r hr, ?_⟩
    rw [reach, Nat.min_eq_left hsize]
    exact hrec.frames r hr

/-- **The tables when the PML4 is loaded.**  They satisfy the invariant of the tables, and
an address walks to the page mapped last. -/
theorem prepareMem_tables (hwf : WellFormedMap info.memMap) (hfb : FrameBufInReach info)
    (hrun : prepareMem (bootKernel m) info = some s')
    (hOk : ∀ r ∈ s'.requests, Granted info.memMap r) :
    IsFrame (pml4 m info) ∧ s'.cr3 = some (pml4 m info) ∧
      TablesInv info.memMap (pml4 m info) s' ∧
      ∀ w f, walk s'.mem (pml4 m info) w = some f ↔ ∃ x, LastMapped info w x ∧ frameOf x = f := by
  have hpml4 := hOk _ (mem_requests_pml4 hrun)
  have hroot := ((allocInv_beforePaging m info).request_frame hpml4).1
  have hlock : ∀ s, TablesInv info.memMap (pml4 m info) s ∧ s.cr3 = none →
      (TablesInv info.memMap (pml4 m info) (lockFrameBuffer info s) ∧
        (lockFrameBuffer info s).cr3 = none) ∧
      ∀ w, walk (lockFrameBuffer info s).mem (pml4 m info) w = walk s.mem (pml4 m info) w :=
    fun s hs => ⟨⟨hs.1.lockPages hwf hroot hfb, (keeps_lockFrameBuffer info s).cr3.trans hs.2⟩,
      walk_congr (hs.1.sameOn_lockPages hwf hroot hfb)⟩
  obtain ⟨s₂, hI, rfl, hwalk⟩ := prepareMem_run (mapInv_boot hwf hroot)
    ⟨tablesInv_clearedPml4 hwf hpml4, clearedPml4_cr3 m info⟩ hlock (fun _ _ => trivial)
    (fun _ _ => trivial) hrun hOk
  exact ⟨hroot, rfl, hI.1.congr_cr3 _, hwalk⟩

end EtaOs
