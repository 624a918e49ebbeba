import EtaOs.KernelHeap.Blocks
import EtaOs.KernelHeap.Screen

/-!
# The heap from the start of the kernel on

A run begins when `prepare_mem` has loaded the page tables, the framebuffer has been cleared, and
`init_heap` has made the heap, and goes on with any sequence of calls, stores and loads that keep
the blocks apart.  As long as `request_page` has returned no `NULL`, such a run is a run of the
memory of blocks.

The steps that keep the blocks apart are those for which `malloc` and `free` do what they are for:
an exact fit, a merge or a store behind a block is no step of this run.

* `HeapBoot`: the start.
* `BlockUse`: one use of the heap that keeps the blocks apart.
* `BlockInv.exists_backs`, `BlockInv.phys_inj`: where the bytes of the blocks lie.
* `kernelHeap_refines_blocks`: the run is a run of the memory of blocks.
-/

namespace EtaOs

open ByteMemory Fallible RadixTree Simulation

/-! ## Statement -/

/-- The kernel prepares its memory, clears the framebuffer, and starts a heap of some pages above
the memory that is mapped to itself, in which the bitmap lies.  Frame 0 is not part of the
bitmap. -/
structure HeapBoot (m : Mem) (info : BootInfo) (a pageCount : BitVec 64)
    (k₀ k₁ : KernelHeap PageFrameAllocator) : Prop where
  wellFormed : WellFormedMap info.memMap
  frameBuf : FrameBufInReach info
  frameBufBelow : info.baseAdress.toNat + info.bufferSize.toNat + 4096 ≤ 2 ^ 48
  screen : ScreenApart info
  notBitmap : ¬ BitmapFrame info.memMap 0
  bitmapBelow : BitmapBelow info.memMap
  aligned : a.toNat % 4096 = 0
  above : (totalMem info.memMap).toNat ≤ a.toNat
  below : a.toNat + 4096 * pageCount.toNat ≤ 2 ^ 48
  pos : 0 < pageCount.toNat
  prepare : (prepareMem (bootKernel m) info).bind (clearScreen info) = some k₀.machine
  init : HeapM.initHeap globalAllocator ⟨pml4 m info⟩ a pageCount k₀ = some ((), k₁)

/-- One use of the heap that keeps the blocks apart. -/
def BlockUse (ptm : PageTableManager) (s : KernelState) (op : BlockOp) (s' : KernelState) : Prop :=
  KernelUse ptm s op s' ∧ KeepsBlocks s op

/-! ## What every use keeps -/

section Uses

variable {ptm : PageTableManager} {s s' : KernelState} {op : BlockOp}

/-- A use moves the machine by every relation by which the mappings move. -/
theorem KernelUse.moves {R : KernelHeap PageFrameAllocator → KernelHeap PageFrameAllocator → Prop}
    [hR : HeapRel globalAllocator ptm R] (huse : KernelUse ptm s op s') : R s.heap s'.heap := by
  cases huse with
  | malloc size fuel p k hrun =>
      have hmoves : Moves R (HeapM.malloc globalAllocator ptm fuel size) := HeapM.moves_malloc _ _
      exact hmoves _ _ _ hrun
  | free b k hb hrun =>
      have hmoves : Moves R (KernelHeap.free b.ptr) :=
        HeapM.moves_setFree.bind fun _ => HeapM.moves_combineForward.bind fun _ =>
          HeapM.moves_combineBackward
      exact hmoves _ _ _ hrun
  | store b i v k hb hi hrun =>
      have hmoves : Moves R (HeapM.store8 (b.addr i) v) := HeapM.moves_store8
      exact hmoves _ _ _ hrun
  | load b i v k hb hi hrun =>
      obtain ⟨_, -, heq⟩ := Option.map_eq_some_iff.mp hrun
      obtain ⟨-, rfl⟩ := Prod.mk.inj heq
      exact hR.refl _

end Uses

/-- Every request so far has returned a frame within reach. -/
def AllGranted (memMap : List EfiMemoryDescriptor) (s : KernelState) : Prop :=
  ∀ r ∈ s.heap.machine.requests, Granted memMap r

/-- What later requests return does not change what earlier ones returned. -/
theorem AllGranted.backwards {ptm : PageTableManager} {memMap : List EfiMemoryDescriptor}
    (s : KernelState) (op : BlockOp) (s' : KernelState) (huse : BlockUse ptm s op s')
    (hOk : AllGranted memMap s') : AllGranted memMap s := by
  have hgrow : Recorder s.heap s'.heap := huse.1.moves
  exact fun r hr => hOk r (hgrow.subset hr)

/-- A run moves the machine by every relation by which the mappings move. -/
theorem blockUses_moves {ptm : PageTableManager} {ops : List BlockOp} {s u : KernelState}
    {R : KernelHeap PageFrameAllocator → KernelHeap PageFrameAllocator → Prop}
    [hR : HeapRel globalAllocator ptm R] (hrun : Steps (BlockUse ptm) s ops u) :
    R s.heap u.heap :=
  hrun.moves (M := fun s u => R s.heap u.heap) (fun s => hR.refl s.heap)
    (fun _ _ _ => hR.trans _ _ _) fun _ _ _ huse => huse.1.moves

namespace HeapBoot

variable {m : Mem} {info : BootInfo} {a pageCount : BitVec 64} {B : Set (BitVec 64)}
  {k₀ k₁ : KernelHeap PageFrameAllocator} {ops : List BlockOp} {u : KernelState}

variable (hboot : HeapBoot m info a pageCount k₀ k₁)

include hboot

theorem size_le : (totalMem info.memMap).toNat ≤ 2 ^ 48 := by
  have habove := hboot.above
  have hbelow := hboot.below
  omega

theorem range : HeapRange info.memMap a pageCount.toNat := by
  have habove := hboot.above
  refine ⟨hboot.aligned, ?_, hboot.below⟩
  unfold totalFrames
  omega

/-- The record of requests only grows. -/
theorem recorder : Recorder k₀ k₁ := by
  have hinit : Moves Recorder (HeapM.initHeap globalAllocator ⟨pml4 m info⟩ a pageCount) :=
    HeapM.moves_initHeap
  exact hinit _ _ _ hboot.init

/-- **At the start** the heap is one free segment and there are no blocks. -/
theorem blockInv (hpages : 1 ≤ totalFrames info.memMap) (hroot : IsFrame (pml4 m info))
    (hid : IdentityInv info.memMap (pml4 m info) k₀.machine)
    (hnull : Held info.memMap (pml4 m info) k₀.machine.mem 0 k₀.machine)
    (hB : ∀ f ∈ B, Held info.memMap (pml4 m info) k₀.machine.mem f k₀.machine)
    (hOk : AllGranted info.memMap ⟨k₁, []⟩) :
    BlockInv info.memMap (pml4 m info) a B k₀.machine.mem pageCount.toNat
      [initialSegment a pageCount] ⟨k₁, []⟩ := by
  have hrange := hboot.range
  have haligned := hboot.aligned
  have habove := hrange.above
  have hbelow := hrange.below
  obtain ⟨fresh, hmirrors⟩ := Mirrors.initHeap hboot.wellFormed hpages hboot.size_le hroot
    hboot.pos hrange hid hnull hB hboot.init hOk default
  have hne : a ≠ 0 := by
    rintro rfl
    exact absurd habove (by simp; omega)
  have hpayloads := payloadInv_initial (n := pageCount) { (default : Heap) with fresh := fresh }
    hne haligned hboot.pos (by omega)
  refine BlockInv.of_mirrors hrange hmirrors ⟨hpayloads.represents, ?_, rfl, ?_⟩ hpayloads
  · intro t ht
    obtain rfl := List.mem_singleton.mp ht
    show a.toNat % 16 = 0
    omega
  · show a + pageCount * 4096 = heapPage a pageCount.toNat
    refine BitVec.eq_of_toNat_eq ?_
    rw [hrange.toNat_heapPage_of_le le_rfl]
    bv_omega

/-- **When `prepare_mem` has returned**, the tables are loaded and share no byte with the
framebuffer, which is cleared. -/
theorem prepared (hnull : ∀ r ∈ k₀.machine.requests, r.frame ≠ 0) :
    ∃ s, prepareMem (bootKernel m) info = some s ∧ k₀.machine = screenCleared info s ∧
      (1 ≤ totalFrames info.memMap ∧ IsFrame (pml4 m info)) ∧ Recorded info.memMap s ∧
      IdentityInv info.memMap (pml4 m info) s ∧
      ∀ t x, Table s.mem (pml4 m info) t → ScreenByte info x → ¬ (x - t).toNat < 4096 := by
  have hsize := hboot.size_le
  obtain ⟨s, hrun, hclear⟩ := Option.bind_eq_some_iff.mp hboot.prepare
  rw [clearScreen_requests hclear] at hnull
  obtain ⟨hpages, hroot, hrec, hid⟩ := identityInv_of_ne_zero hboot.wellFormed hboot.bitmapBelow
    hboot.frameBuf hsize (visited_frameBuf_lt hboot.frameBufBelow) hrun hnull
  have hgranted := hrec.granted hsize hnull
  rw [clearScreen_eq hboot.wellFormed hboot.frameBuf hsize hboot.frameBufBelow hboot.screen hrun
    hgranted] at hclear
  exact ⟨s, hrun, (Option.some.inj hclear).symm, ⟨hpages, hroot⟩, hrec, hid,
    not_table_screen hboot.wellFormed hboot.frameBuf hboot.screen hrun hgranted⟩

/-- **What a run rests on**, when no request has returned `NULL`. -/
theorem start (hnull : ∀ r ∈ k₁.machine.requests, r.frame ≠ 0) :
    (1 ≤ totalFrames info.memMap ∧ IsFrame (pml4 m info)) ∧
      IdentityInv info.memMap (pml4 m info) k₀.machine ∧
      Held info.memMap (pml4 m info) k₀.machine.mem 0 k₀.machine ∧
      Recorded info.memMap k₁.machine := by
  have hsize := hboot.size_le
  have hnull₀ : ∀ r ∈ k₀.machine.requests, r.frame ≠ 0 :=
    fun r hr => hnull r (hboot.recorder.subset hr)
  obtain ⟨s, hrun, hk₀, hfacts, hrec, hid, htable⟩ := hboot.prepared hnull₀
  have hrec₀ : Recorded info.memMap k₀.machine := by
    rw [hk₀]
    exact ⟨hrec.bitmap, hrec.memSize, hrec.frames⟩
  -- the frames on the record stay among those that the bitmap counts
  have hkeeps : Moves (KeepsRecord info.memMap)
      (HeapM.initHeap globalAllocator ⟨pml4 m info⟩ a pageCount) := HeapM.moves_initHeap
  have hrec₁ : Recorded info.memMap k₁.machine := hkeeps _ _ _ hboot.init hrec₀
  have hgranted : ∀ r ∈ s.requests, Granted info.memMap r := by
    refine hrec.granted hsize fun r hr => hnull₀ r ?_
    rw [hk₀]
    exact hr
  have hzero : frameIndex (0 : BitVec 64) = 0 := by decide
  have hheld : Held info.memMap (pml4 m info) s.mem 0 s := by
    refine ⟨by decide, ?_, ?_, ?_, hzero ▸ hboot.notBitmap, SameOn.refl _ _ _⟩
    · -- frame 0 is within reach, as a request has returned a frame that is
      have hlt := (hgranted _ (mem_requests_pml4 hrun)).2
      rw [hzero]
      omega
    · rw [hzero]
      exact hid.tables.alloc.zero
    · exact not_table_null hboot.wellFormed hboot.frameBuf hrun hgranted
  rw [hk₀]
  exact ⟨hfacts, hid.clearScreen hboot.wellFormed hboot.screen htable,
    hheld.clearScreen hboot.wellFormed hboot.screen htable hid.tables.alloc, hrec₁⟩

/-- The bounds of the heap. -/
theorem bounds (hnull : ∀ r ∈ k₁.machine.requests, r.frame ≠ 0) :
    k₁.heapStart = a ∧ k₁.heapEnd = heapPage a pageCount.toNat := by
  obtain ⟨⟨hpages, hroot⟩, hid, hzero, hrec⟩ := hboot.start hnull
  have hinv := hboot.blockInv (B := ∅) hpages hroot hid hzero
    (fun f hf => absurd hf (Set.notMem_empty f)) (hrec.granted hboot.size_le hnull)
  exact ⟨hinv.on.start, hinv.on.stop⟩

section Runs

variable (hrun : Steps (BlockUse ⟨pml4 m info⟩) ⟨k₁, []⟩ ops u)
  (hnull : ∀ r ∈ u.heap.machine.requests, r.frame ≠ 0)

include hrun hnull

/-- **After the run** the heap is a list in which every block owns a segment, and a memory of
blocks has made the same run. -/
theorem run (hB : ∀ f ∈ B, Held info.memMap (pml4 m info) k₀.machine.mem f k₀.machine)
    (bytes : Block → ℕ → BitVec 8) :
    ∃ t, Steps BlockStore.Step ⟨[], bytes⟩ ops t ∧
      (∃ n segs, BlockInv info.memMap (pml4 m info) a B k₀.machine.mem n segs u) ∧ Holds u t := by
  have hgrow : Recorder k₁ u.heap := blockUses_moves hrun
  have hkeeps : KeepsRecord info.memMap k₁ u.heap := blockUses_moves hrun
  obtain ⟨⟨hpages, hroot⟩, hid, hheld, hrec⟩ :=
    hboot.start fun r hr => hnull r (hgrow.subset hr)
  have hOk : AllGranted info.memMap u := (hkeeps hrec).granted hboot.size_le hnull
  have hinv := hboot.blockInv hpages hroot hid hheld hB
    (hrun.backwards AllGranted.backwards hOk)
  refine hrun.simulate (R := fun s t =>
    (∃ n segs, BlockInv info.memMap (pml4 m info) a B k₀.machine.mem n segs s) ∧ Holds s t)
    AllGranted.backwards (fun s t op s' hs huse hOk' => ?_) hOk
    ⟨⟨_, _, hinv⟩, rfl, fun b hb => absurd hb (by simp)⟩
  exact blockStore_step hboot.wellFormed hpages hboot.size_le hroot hs.1 hs.2 huse.1 huse.2 hOk'

end Runs

end HeapBoot

/-! ## Where the bytes of the blocks lie -/

namespace BlockInv

variable {memMap : List EfiMemoryDescriptor} {root a : BitVec 64} {B : Set (BitVec 64)} {m : Mem}
  {n : ℕ} {segs : List Segment} {s : KernelState} {b c : Block}

variable (hinv : BlockInv memMap root a B m n segs s)

include hinv

/-- A byte of a live block lies in the frame behind a page of the heap. -/
theorem exists_backs (hb : b ∈ s.live) {i : ℕ} (hi : i < b.size.toNat) :
    ∃ j < n, ∃ f d : BitVec 64, Backs root a s.heap.machine j f ∧ b.addr i = heapPage a j + d ∧
      d.toNat < 4096 ∧ s.heap.machine.phys (b.addr i) = some (f + d) := by
  obtain ⟨hval, hlo, hhi⟩ := hinv.addr_toNat hb hi
  obtain ⟨j, hj, d, heq, hd⟩ :=
    hinv.range.onPage (x := b.addr i) (Or.inr rfl) (by omega) (by omega)
  have hpages := hinv.mirrors.refines.shown.pages
  obtain ⟨f, hf⟩ := hpages.present j hj
  refine ⟨j, hj, f, d, hf, heq, by omega, ?_⟩
  rw [heq]
  exact hpages.phys hinv.range hj hf (by omega)

/-- No two bytes of live blocks are the same byte of memory. -/
theorem phys_inj (hb : b ∈ s.live) (hc : c ∈ s.live) {i j : ℕ} (hi : i < b.size.toNat)
    (hj : j < c.size.toNat)
    (heq : s.heap.machine.phys (b.addr i) = s.heap.machine.phys (c.addr j)) :
    b = c ∧ i = j := by
  have hpages := hinv.mirrors.refines.shown.pages
  obtain ⟨x, hx, f, d, hf, hbaddr, hd, hbphys⟩ := hinv.exists_backs hb hi
  obtain ⟨y, hy, g, e, hg, hcaddr, he, hcphys⟩ := hinv.exists_backs hc hj
  rw [hbphys, hcphys] at heq
  have hsum := Option.some.inj heq
  obtain ⟨hf1, hf2⟩ := (hpages.held x hx f hf).frame
  obtain ⟨hg1, hg2⟩ := (hpages.held y hy g hg).frame
  have hfg : f = g := by bv_omega
  have hde : d = e := by bv_omega
  subst hfg hde
  obtain rfl := hpages.distinct x hx y hy f hf hg
  have haddr : b.addr i = c.addr j := hbaddr.trans hcaddr.symm
  have hbc : b = c := by
    by_contra hne
    exact hinv.addr_ne hb hc hne hi hj haddr
  subst hbc
  have hbi := (hinv.addr_toNat hb hi).1
  have hbj := (hinv.addr_toNat hc hj).1
  rw [haddr] at hbi
  exact ⟨rfl, by omega⟩

end BlockInv

/-! ## Machines with enough memory -/

/-- **The kernel starts its heap** when the frames that are unmarked before paging are enough for
the tables and for the pages of the heap.  Frames are left, and a byte of the framebuffer outside
the heap is mapped to itself. -/
theorem exists_heapBoot {m : Mem} {info : BootInfo} {a pageCount : BitVec 64}
    {S : Finset (List (BitVec 9))} {L : ℕ → Prop} [DecidablePred L] {N : ℕ}
    (hwf : WellFormedMap info.memMap) (hfb : FrameBufInReach info)
    (hfbBelow : info.baseAdress.toNat + info.bufferSize.toNat + 4096 ≤ 2 ^ 48)
    (hscreen : ScreenApart info) (hnot : ¬ BitmapFrame info.memMap 0)
    (hbitmap : BitmapBelow info.memMap)
    (haligned : a.toNat % 4096 = 0) (habove : (totalMem info.memMap).toNat ≤ a.toNat)
    (hbelow : a.toNat + 4096 * pageCount.toNat ≤ 2 ^ 48) (hpos : 0 < pageCount.toNat)
    (hL : ∀ k < reach info.memMap, LoopFrames info.baseAdress (frameBufPages info) k → L k)
    (hmem : ∀ i, Visited 0 (totalMem info.memMap) i → PathsIn S i)
    (hframe : ∀ i, Visited info.baseAdress (frameBufEnd info) i → PathsIn S i)
    (hheap : ∀ j < pageCount.toNat, PathsIn S (heapPage a j))
    (hroom : S.card + (N + pageCount.toNat) + 1 <
      (unmarked info.memMap L (beforePaging m info)).card) :
    ∃ s k₁, prepareMem (bootKernel m) info = some s ∧
      clearScreen info s = some (screenCleared info s) ∧
      HeapM.initHeap globalAllocator ⟨pml4 m info⟩ a pageCount
        ⟨screenCleared info s, [], 0, 0, 0⟩ = some ((), k₁) ∧
      HeapBoot m info a pageCount ⟨screenCleared info s, [], 0, 0, 0⟩ k₁ ∧
      Supply info.memMap (pml4 m info) S L N k₁.machine ∧
      ∀ x, ScreenByte info x →
        (x.toNat < a.toNat ∨ a.toNat + 4096 * pageCount.toNat ≤ x.toNat) →
        k₁.machine.Direct x := by
  have hsize : (totalMem info.memMap).toNat ≤ 2 ^ 48 := by omega
  have hend := frameBufEnd_toNat hfbBelow
  obtain ⟨s, hrun⟩ := prepareMem_isSome m info (by omega)
  have hsupply := supply_of_room hwf hfb hroom hL hmem hframe hrun
  have hgiven := hsupply.tables.given
  obtain ⟨hpages, hroot, -, hid⟩ := identityInv_of_ne_zero hwf hbitmap hfb hsize
    (visited_frameBuf_lt hfbBelow) hrun fun r hr => (hgiven r hr).2.1
  have hOk : ∀ r ∈ s.requests, Granted info.memMap r := fun r hr => (hgiven r hr).2
  -- the framebuffer is cleared
  have htable := not_table_screen hwf hfb hscreen hrun hOk
  have hclear := clearScreen_eq hwf hfb hsize hfbBelow hscreen hrun hOk
  -- and the heap is mapped
  have hrange : HeapRange info.memMap a pageCount.toNat := by
    refine ⟨haligned, ?_, hbelow⟩
    unfold totalFrames
    omega
  have hcleared := hid.clearScreen hwf hscreen htable
  obtain ⟨_, k₁, hinit, hsupply₁, hcr3, hwalk⟩ := returns_initHeap
    (k := ⟨screenCleared info s, [], 0, 0, 0⟩) (N := N) hwf hpages hsize hroot hpos hrange
    hcleared (hsupply.clearScreen hwf hscreen htable) hheap
  have hprepare : (prepareMem (bootKernel m) info).bind (clearScreen info) =
      some (screenCleared info s) := by
    rw [hrun]
    exact hclear
  refine ⟨s, k₁, hrun, hclear, hinit, ⟨hwf, hfb, hfbBelow, hscreen, hnot, hbitmap, haligned,
    habove, hbelow, hpos, hprepare, hinit⟩, hsupply₁, fun x hx hout => ?_⟩
  have hlt : x.toNat < 2 ^ 48 := by
    unfold ScreenByte at hx
    bv_omega
  have hsame := hwalk x fun j hj hpage => ?_
  · have hdirect : (screenCleared info s).Direct x :=
      (phys_screenCleared htable hid.cr3 x).trans (direct_screen hwf hfb hsize hfbBelow hrun hOk hx)
    rw [Machine.Direct, Machine.phys, hcleared.cr3] at hdirect
    rw [Machine.Direct, Machine.phys, hcr3]
    dsimp only at hdirect ⊢
    rwa [hsame]
  · have hj' := hrange.toNat_heapPage hj
    have hindex := (samePage_iff_of_lt (by omega) hlt).mp hpage
    omega

/-! ## A machine with 16 megabytes -/

/-- The bitmap of a range that starts at 1 MiB is not in frame 0. -/
theorem notBitmapFrame_sixteenMegabytes :
    ¬ BitmapFrame (sixteenMegabytes 0x100000).memMap 0 := by
  intro hbitmap
  rw [BitmapFrame, initialBitmap_sixteenMegabytes (Or.inr rfl),
    loopFrames_iff (by decide) (by decide)] at hbitmap
  exact absurd hbitmap.1 (by decide)

/-- The kernel starts a heap of one page, and frames are left. -/
theorem heapBoot_sixteenMegabytes (m : Mem) : ∃ k₀ k₁,
    HeapBoot m (sixteenMegabytes 0x100000) 0x100000000000 1 k₀ k₁ ∧
      Supply (sixteenMegabytes 0x100000).memMap (pml4 m (sixteenMegabytes 0x100000)) lowPaths
        (fun k => 3072 ≤ k) 1 k₁.machine := by
  have hbase : (0x100000 : BitVec 64) = 0 ∨ (0x100000 : BitVec 64) = 0x100000 := Or.inr rfl
  have habove : (totalMem (sixteenMegabytes 0x100000).memMap).toNat ≤
      (0x100000000000 : BitVec 64).toNat :=
    (totalMem_sixteenMegabytes_le hbase).trans (by decide)
  have hheap : ∀ j < (1 : BitVec 64).toNat, PathsIn lowPaths (heapPage 0x100000000000 j) := by
    intro j hj
    obtain rfl := Nat.lt_one_iff.mp hj
    exact pathsIn_heapStart (by decide)
  obtain ⟨s, k₁, -, -, -, hboot, hsupply, -⟩ := exists_heapBoot (N := 1)
    (sixteenMegabytes_wellFormed hbase) (frameBufInReach_sixteenMegabytes hbase) (by decide)
    screenApart_sixteenMegabytes notBitmapFrame_sixteenMegabytes
    (bitmapBelow_sixteenMegabytes hbase) rfl habove (by decide) (by decide)
    (fun _ _ h => loopFrames_sixteenMegabytes h) (fun _ => (pathsIn_sixteenMegabytes hbase).1)
    (fun _ => (pathsIn_sixteenMegabytes hbase).2) hheap
    (room_sixteenMegabytes m hbase (n := 1 + 1) (by decide))
  exact ⟨_, k₁, hboot, hsupply⟩

/-- The heap of one page has room for a block of 16 bytes. -/
theorem BlockInv.malloc_onePage {memMap : List EfiMemoryDescriptor} {root : BitVec 64}
    {B : Set (BitVec 64)} {m : Mem} {k : KernelHeap PageFrameAllocator}
    (hinv : BlockInv memMap root 0x100000000000 B m 1 [initialSegment 0x100000000000 1] ⟨k, []⟩)
    (hwf : WellFormedMap memMap) (hpages : 1 ≤ totalFrames memMap)
    (hsize : (totalMem memMap).toNat ≤ 2 ^ 48) (hroot : IsFrame root) :
    ∃ k', BlockUse ⟨root⟩ ⟨k, []⟩ (.malloc 16 0x100000000020) ⟨k', [⟨0x100000000020, 16⟩]⟩ ∧
      ∃ n segs, BlockInv memMap root 0x100000000000 B m n segs ⟨k', [⟨0x100000000020, 16⟩]⟩ := by
  have hr := hinv.on.represents
  have hmem : initialSegment 0x100000000000 1 ∈ [initialSegment 0x100000000000 1] :=
    List.mem_singleton_self _
  have hfits : (initialSegment 0x100000000000 1).Fits (roundUp 16) := by decide
  obtain ⟨h', hmalloc, -⟩ := malloc_first 16 1 (L := []) (R := []) hr (by decide) (by simp)
    hfits (by decide)
  obtain ⟨k', hcall, hOk⟩ := hinv.malloc_returns hwf hpages hroot (by decide)
    ⟨_, hmem, hfits⟩ hmalloc
  have hkeeps : KeepsBlocks ⟨k, []⟩ (.malloc 16 0x100000000020) :=
    ⟨Or.inr (hr.takesMore (L := []) (by simp) hfits (by decide)), Or.inr (Or.inl
      ⟨_, hr.met_iff.mpr ⟨_, hmem, rfl⟩, (hr.fitsAt_iff hmem).mpr hfits⟩)⟩
  exact ⟨k', ⟨KernelUse.malloc ⟨k, []⟩ 16 1 _ k' hcall, hkeeps⟩,
    (hinv.malloc hwf hpages hsize hroot hkeeps hcall hOk).1⟩

/-- A block of 16 bytes is taken, and a byte of it is stored and loaded. -/
theorem run_sixteenMegabytes : ∃ (k₀ k₁ : KernelHeap PageFrameAllocator) (u : KernelState),
    HeapBoot (fun _ => 0) (sixteenMegabytes 0x100000) 0x100000000000 1 k₀ k₁ ∧
      Steps (BlockUse ⟨pml4 (fun _ => 0) (sixteenMegabytes 0x100000)⟩) ⟨k₁, []⟩
        [.malloc 16 0x100000000020, .store ⟨0x100000000020, 16⟩ 3 7,
          .load ⟨0x100000000020, 16⟩ 3 7] u ∧
      (∀ r ∈ u.heap.machine.requests, r.frame ≠ 0) ∧ u.live = [⟨0x100000000020, 16⟩] := by
  obtain ⟨k₀, k₁, hboot, hsupply⟩ := heapBoot_sixteenMegabytes fun _ => 0
  have hOk : AllGranted (sixteenMegabytes 0x100000).memMap ⟨k₁, []⟩ :=
    fun r hr => (hsupply.tables.given r hr).2
  obtain ⟨⟨hpages, hroot⟩, hid, hheld, -⟩ := hboot.start fun r hr => (hOk r hr).1
  have hwf := hboot.wellFormed
  have hinv := hboot.blockInv (B := ∅) hpages hroot hid hheld (fun f hf => absurd hf (by simp)) hOk
  obtain ⟨k₂, hmalloc, n₂, segs₂, hinv₂⟩ :=
    hinv.malloc_onePage hwf hpages hboot.size_le hroot
  have hb : (⟨0x100000000020, 16⟩ : Block) ∈ (⟨k₂, [⟨0x100000000020, 16⟩]⟩ : KernelState).live :=
    List.mem_singleton_self _
  have hi : 3 < (⟨0x100000000020, 16⟩ : Block).size.toNat := by decide
  obtain ⟨_, k₃, hstore, hinv₃, hbytes⟩ := hinv₂.store hwf hroot hb hi 7
  have hload := hinv₃.load8 hb hi
  rw [hbytes _ hb 3 hi, if_pos rfl] at hload
  have hloadRun : HeapM.load8 (Block.addr ⟨0x100000000020, 16⟩ 3) k₃ = some (7, k₃) := by
    rw [HeapM.load8, hload, Option.map_some]
  refine ⟨k₀, k₁, ⟨k₃, [⟨0x100000000020, 16⟩]⟩, hboot,
    Steps.cons _ _ _ _ _ hmalloc <|
      Steps.cons _ _ _ _ _ ⟨KernelUse.store _ _ 3 7 k₃ hb hi hstore, trivial⟩ <|
        Steps.single ⟨KernelUse.load _ _ 3 7 k₃ hb hi hloadRun, trivial⟩, fun r hr => ?_, rfl⟩
  exact (hinv₃.mirrors.refines.shown.pages.identity.tables.given r hr).2.1

/-! ## The results -/

section Results

variable {m : Mem} {info : BootInfo} {a pageCount : BitVec 64}
  {k₀ k₁ : KernelHeap PageFrameAllocator} {ops : List BlockOp} {u : KernelState}

/-- **The heap is a memory of separate blocks.**  After `prepare_mem` and `init_heap`, every run
of calls of `malloc` and `free`, of stores to live blocks and of loads from them, in which the
calls keep the payloads apart and no request has returned `NULL`, is a run of the memory of
blocks: the loads return what was stored last in the same place of the same block, and at the
end every byte of every live block is loaded as the memory of blocks has it. -/
theorem kernelHeap_refines_blocks (hboot : HeapBoot m info a pageCount k₀ k₁)
    (hrun : Steps (BlockUse ⟨pml4 m info⟩) ⟨k₁, []⟩ ops u)
    (hnull : ∀ r ∈ u.heap.machine.requests, r.frame ≠ 0) (bytes : Block → ℕ → BitVec 8) :
    ∃ t, Steps BlockStore.Step ⟨[], bytes⟩ ops t ∧ t.live = u.live ∧
      ∀ b ∈ u.live, ∀ i < b.size.toNat,
        u.heap.machine.load8 (b.addr i) = some (t.bytes b i) := by
  obtain ⟨t, hsteps, ⟨n, segs, hinv⟩, hholds⟩ := hboot.run hrun hnull (B := ∅) (by simp) bytes
  refine ⟨t, hsteps, hholds.live, fun b hb i hi => ?_⟩
  rw [hinv.load8 hb hi, hholds.bytes b hb i hi]

/-- What was stored in a block of 16 bytes is loaded from it. -/
theorem kernelHeap_refines_blocks_sixteenMegabytes : ∃ (k₀ k₁ : KernelHeap PageFrameAllocator)
    (u : KernelState) (t : BlockStore),
      HeapBoot (fun _ => 0) (sixteenMegabytes 0x100000) 0x100000000000 1 k₀ k₁ ∧
      Steps BlockStore.Step ⟨[], fun _ _ => 0⟩ [.malloc 16 0x100000000020,
        .store ⟨0x100000000020, 16⟩ 3 7, .load ⟨0x100000000020, 16⟩ 3 7] t ∧
      t.live = [⟨0x100000000020, 16⟩] ∧ u.live = [⟨0x100000000020, 16⟩] := by
  obtain ⟨k₀, k₁, u, hboot, hrun, hnull, hlive⟩ := run_sixteenMegabytes
  obtain ⟨t, hsteps, heq, -⟩ := kernelHeap_refines_blocks hboot hrun hnull fun _ _ => 0
  exact ⟨k₀, k₁, u, t, hboot, hsteps, heq.trans hlive, hlive⟩

end Results

end EtaOs
