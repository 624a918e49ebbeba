import EtaOs.KernelHeap.ObjectRuns

/-!
# What the boot loader left in memory

The image of the kernel, the boot information and the tables of the firmware lie in frames that
the memory map does not call conventional, or that `prepare_mem` locks.  The kernel builds its
page tables and its heap in the same memory, and reads all of these through them.

Until the page tables are loaded, setting up the allocator writes to the frames of the bitmap
only, and building the tables writes to frames that were not marked.  From then on the frames are
among those that no use of memory touches, but for the kernel's own stores: the image holds the
variables of the kernel as well as its code, and a frame of variables is not as the boot loader
left it.  Every other frame is, and is loaded so at its own address.
-/

namespace EtaOs

open ByteMemory Fallible IntLoop RadixTree Simulation

variable {m : Mem} {info : BootInfo} {f : BitVec 64} {own : Set (BitVec 64)}

/-- **The frames that keep what is in them**: those that were in use at the start, or are beyond the
reach of the allocator, in the memory that is mapped to itself. -/
structure BootImage (info : BootInfo) (f : BitVec 64) : Prop extends UsedAtBoot info f where
  inMemory : frameIndex f < totalFrames info.memMap

/-- Those of them that the allocator could reach. -/
def imageFrames (info : BootInfo) : Set (BitVec 64) :=
  {f | UsedAtBoot info f ∧ frameIndex f < reach info.memMap}

/-- Frames that were in use at the start may be the kernel's own. -/
theorem ownFrames_image (hown : ∀ f ∈ own, UsedAtBoot info f) :
    OwnFrames info.memMap own (imageFrames info) :=
  ownFrames_of_usedAtBoot hown fun f hf hreach => ⟨hown f hf, hreach⟩

/-! ## Until the page tables are loaded -/

/-- The marks of a machine of at most 16 TiB are those of less than `2 ^ 34` frames. -/
theorem initialBitmap_last_lt {memMap : List EfiMemoryDescriptor}
    (hsize : (totalMem memMap).toNat ≤ 2 ^ 44) : (initialBitmap memMap).last < 2 ^ 34 := by
  have hbytes := initialBitmap_size memMap
  have hlast := initialBitmap_last memMap
  unfold totalFrames at hbytes
  omega

/-- Clearing the bitmap writes to its frames only. -/
theorem sameOn_afterInitBitmap {memMap : List EfiMemoryDescriptor} (hwf : WellFormedMap memMap)
    (hsize : (totalMem memMap).toNat ≤ 2 ^ 44) (hf : IsFrame f)
    (hnot : ¬ BitmapFrame memMap (frameIndex f)) :
    SameOn f 4096 m (afterInitBitmap m memMap).mem := by
  intro x hx
  have hlast := initialBitmap_last memMap
  have hlt := initialBitmap_last_lt hsize
  unfold afterInitBitmap initBitmap
  refine (forInt_induction (P := fun t : Kernel =>
    t.alloc.pageBitmap = initialBitmap memMap ∧ t.mem x = m x) ?_ ⟨rfl, rfl⟩).2
  rintro i t hi ⟨hbitmap, ht⟩
  refine ⟨hbitmap, (if_neg ?_).trans ht⟩
  rintro rfl
  -- the byte of iteration `i` holds the mark of frame `8 * i`
  obtain ⟨hi, hi'⟩ := (iter_iff_of_le (by omega)).mp hi
  have hbyte : t.alloc.pageBitmap.buffer + i.signExtend 64 =
      (initialBitmap memMap).byteAddr (8 * i.toNat) := by
    rw [hbitmap, Bitmap.byteAddr]
    congr 1
    apply BitVec.eq_of_toNat_eq
    rw [signExtend_of_lt hi', BitVec.toNat_ofNat]
    omega
  rw [hbyte] at hx
  exact byteAddr_notMem hwf hf hnot (by omega) (by omega) hx

/-- **Setting up the allocator** writes to the frames of the bitmap only. -/
theorem sameOn_beforePaging (hwf : WellFormedMap info.memMap)
    (hsize : (totalMem info.memMap).toNat ≤ 2 ^ 44) (hf : IsFrame f)
    (hnot : ¬ BitmapFrame info.memMap (frameIndex f)) :
    SameOn f 4096 m (beforePaging m info).mem := by
  refine (sameOn_afterInitBitmap hwf hsize hf hnot).trans fun x hx => ?_
  refine (keeps_beforePaging m info).mem x fun k hk => ?_
  rintro rfl
  have hbitmap := afterInitBitmap_pageBitmap m info.memMap
  rw [Machine.last, hbitmap] at hk
  rw [hbitmap] at hx
  exact byteAddr_notMem hwf hf hnot hk (lt_of_le_of_lt hk (initialBitmap_last_lt hsize)) hx

/-- The request of the PML4 and its clearing write to its frame, and to the bitmap. -/
theorem sameOn_clearedPml4 (hwf : WellFormedMap info.memMap)
    (hsize : (totalMem info.memMap).toNat ≤ 2 ^ 44)
    (hOk : Granted info.memMap (nextRequest bootAllocator (beforePaging m info)))
    (hf : IsFrame f) (hnot : ¬ BitmapFrame info.memMap (frameIndex f)) (hne : pml4 m info ≠ f) :
    SameOn f 4096 m (clearedPml4 m info).mem := by
  have halloc := allocInv_beforePaging m info
  obtain ⟨hroot, -, -, -⟩ := halloc.request_frame hOk
  refine ((sameOn_beforePaging hwf hsize hf hnot).trans
    (Held.sameOn_requestPage hwf halloc hOk hf hnot)).trans ?_
  exact sameOn_fill 0 (hroot.apart hf hne)

/-! ## From then on -/

section Image

variable {a pageCount : BitVec 64} {k₀ k₁ : KernelHeap PageFrameAllocator}

/-- **When `init_heap` has returned**, the frames are as the boot loader left them, with the
framebuffer cleared, and are nobody else's. -/
theorem HeapBoot.imageInv (hboot : HeapBoot m info a pageCount k₀ k₁)
    (hsize : (totalMem info.memMap).toNat ≤ 2 ^ 44) (hown : ∀ f ∈ own, UsedAtBoot info f)
    (hnull : ∀ r ∈ k₁.machine.requests, r.frame ≠ 0) :
    (1 ≤ totalFrames info.memMap ∧ IsFrame (pml4 m info)) ∧ Recorded info.memMap k₁.machine ∧
      MemoryInv info.memMap (pml4 m info) a own (imageFrames info) (clearedMemory info m)
        ⟨⟨k₁, []⟩, []⟩ := by
  have hwf := hboot.wellFormed
  have hnull₀ : ∀ r ∈ k₀.machine.requests, r.frame ≠ 0 :=
    fun r hr => hnull r (hboot.recorder.subset hr)
  obtain ⟨-, -, -, hrec⟩ := hboot.start hnull
  obtain ⟨s, hrun, hk₀, -, hrecs, -, -⟩ := hboot.prepared hnull₀
  have hgranted : ∀ r ∈ s.requests, Granted info.memMap r := by
    refine hrecs.granted hboot.size_le fun r hr => hnull₀ r ?_
    rw [hk₀]
    exact hr
  have hfirst := hgranted _ (mem_requests_pml4 hrun)
  obtain ⟨-, hfar⟩ := keptByBoot hwf hboot.frameBuf hrun hgranted
  have hmarked : ∀ f ∈ imageFrames info,
      Held info.memMap (pml4 m info) (clearedMemory info m) f k₀.machine := by
    rintro f ⟨hf, hreach⟩
    obtain ⟨hne, h⟩ := hboot.held_usedAtBoot hnull₀ hf hreach
    have hsame := sameOn_clearedPml4 hwf hsize hfirst hf.frame hf.notBitmap hne
    exact { h with same := (sameOn_clearedMemory hsame).trans h.same }
  have hbefore : SameFar info.memMap m s.mem := by
    intro f hf hreach hnot
    refine (sameOn_clearedPml4 hwf hsize hfirst hf hnot ?_).trans (hfar f hf hreach hnot)
    -- the PML4 is within reach
    rintro rfl
    exact absurd hfirst.2 (Nat.not_lt.mpr hreach)
  have hcleared : SameFar info.memMap (clearedMemory info m) k₀.machine.mem := by
    rw [hk₀]
    exact hbefore.clearScreen
  obtain ⟨hfacts, -, hblocks, hframes, hownFrames, hkept, hlater⟩ := hboot.memoryInv hnull
    (fun f hf => { hmarked f hf with same := SameOn.refl _ _ _ }) (ownFrames_image hown)
  exact ⟨hfacts, hrec, hblocks, hframes, hownFrames,
    fun f hf hne hnot => (hmarked f hf).same.trans (hkept f hf hne hnot),
    (hcleared.but own).trans hlater⟩

/-- A pointer into memory denotes its own address. -/
theorem MemoryInv.direct_memory {root : BitVec 64} {K : Set (BitVec 64)} {s : MemoryState}
    {x : Addr} (hinv : MemoryInv info.memMap root a own K m s) (hf : IsFrame f)
    (hmem : frameIndex f < totalFrames info.memMap) (hx : (x - f).toNat < 4096) :
    s.machine.Direct x := by
  obtain ⟨n, segs, hblocks⟩ := hinv.blocks
  have hid := hblocks.mirrors.refines.shown.pages.identity
  exact direct_of_walk hid.cr3 hf (hid.walk_frame hf hmem) hx

/-- **The frames are loaded as they were.** -/
theorem MemoryInv.load8_image {root : BitVec 64} {s : MemoryState} {x : Addr}
    (hinv : MemoryInv info.memMap root a own (imageFrames info) m s) (hf : BootImage info f)
    (hnot : f ∉ own) (hx : (x - f).toNat < 4096) : s.machine.load8 x = some (m x) := by
  have hsame : SameOn f 4096 m s.machine.mem := by
    by_cases hreach : frameIndex f < reach info.memMap
    · exact hinv.kept f ⟨hf.toUsedAtBoot, hreach⟩ hf.ne hnot
    · exact hinv.far f hf.frame (by omega) hf.notBitmap hnot
  rw [Machine.load8, hinv.direct_memory hf.frame hf.inMemory hx, Option.map_some, hsame x hx]

end Image

/-! ## The result -/

section Result

variable {a pageCount : BitVec 64} {k₀ k₁ : KernelHeap PageFrameAllocator} {ops : List MemoryOp}
  {u : MemoryState}

/-- Every run of the uses of memory keeps the frames. -/
theorem HeapBoot.imageInv_run (hboot : HeapBoot m info a pageCount k₀ k₁)
    (hsize : (totalMem info.memMap).toNat ≤ 2 ^ 44) (hown : ∀ f ∈ own, UsedAtBoot info f)
    (hrun : Steps (MemoryUse info.memMap own ⟨pml4 m info⟩) ⟨⟨k₁, []⟩, []⟩ ops u)
    (hnull : ∀ r ∈ u.machine.requests, r.frame ≠ 0) :
    (1 ≤ totalFrames info.memMap ∧ IsFrame (pml4 m info)) ∧
      MemoryInv info.memMap (pml4 m info) a own (imageFrames info) (clearedMemory info m) u := by
  have hgrow : Recorder k₁ u.blocks.heap := memoryUses_moves recorder_requestPage hrun
  obtain ⟨⟨hpages, hroot⟩, hrec, hstart⟩ :=
    hboot.imageInv hsize hown fun r hr => hnull r (hgrow.subset hr)
  obtain ⟨-, -, hinv, -⟩ := memoryUses_run hboot.wellFormed hpages hboot.size_le hroot hstart
    (holdsObjects_start k₁ (fun _ _ => 0) fun _ _ => 0) hrec hrun hnull
  exact ⟨⟨hpages, hroot⟩, hinv⟩

/-- **What the boot loader left in memory stays there.**  On a machine of at most 16 TiB, when
`prepare_mem` has returned, the framebuffer has been cleared, and `init_heap` has returned, every
run of the heap, of `request_page`, of stores to the frames it returned, of `map_mem` outside the
heap, and of stores of the kernel's own, in any order, in which no request has returned `NULL`,
leaves the other frames that were in use at the start, and those beyond the reach of the allocator,
as they were: every byte of them is loaded as the boot loader left it, but for those of the
framebuffer, which are zero. -/
theorem bootImage_stays (hboot : HeapBoot m info a pageCount k₀ k₁)
    (hsize : (totalMem info.memMap).toNat ≤ 2 ^ 44) (hown : ∀ f ∈ own, UsedAtBoot info f)
    (hrun : Steps (MemoryUse info.memMap own ⟨pml4 m info⟩) ⟨⟨k₁, []⟩, []⟩ ops u)
    (hnull : ∀ r ∈ u.machine.requests, r.frame ≠ 0) (hf : BootImage info f) (hnot : f ∉ own) :
    ∀ i < 4096, u.machine.load8 (frameByte f i) = some (clearedMemory info m (frameByte f i)) := by
  intro i hi
  obtain ⟨-, hinv⟩ := hboot.imageInv_run hsize hown hrun hnull
  exact hinv.load8_image hf hnot (by rwa [frameByte_sub hi])

/-- The frames of the kernel are four, from 2 MiB on. -/
theorem bootImage_kernel {f : BitVec 64} (hf : IsFrame f) (hlo : 0x200 ≤ frameIndex f)
    (hhi : frameIndex f < 0x204) : BootImage (sixteenMegabytes 0x100000) f := by
  have hbase : (0x100000 : BitVec 64) = 0 ∨ (0x100000 : BitVec 64) = 0x100000 := Or.inr rfl
  refine ⟨usedAtBoot_kernel hf hlo hhi, ?_⟩
  rw [totalFrames_sixteenMegabytes hbase]
  omega

/-- The second frame of the kernel is as it was loaded, when the first one holds its variables. -/
theorem bootImage_stays_sixteenMegabytes : ∃ (k₀ k₁ : KernelHeap PageFrameAllocator)
    (u : MemoryState) (f : BitVec 64), HeapBoot (BitVec.setWidth 8) (sixteenMegabytes 0x100000)
        0x100000000000 1 k₀ k₁ ∧
      u.frames = [f] ∧ u.machine.load8 (frameByte 0x201000 5) = some 5 := by
  obtain ⟨k₀, k₁, u, f, hboot, hrun, hnull, hframes, -⟩ :=
    memoryUses_sixteenMegabytes (BitVec.setWidth 8)
  have hbase : (0x100000 : BitVec 64) = 0 ∨ (0x100000 : BitVec 64) = 0x100000 := Or.inr rfl
  have hload := bootImage_stays hboot ((totalMem_sixteenMegabytes_le hbase).trans (by decide))
    usedAtBoot_variables hrun hnull (bootImage_kernel (f := 0x201000) (by decide) (by decide)
    (by decide)) (by decide) 5 (by decide)
  have hbyte : clearedMemory (sixteenMegabytes 0x100000) (BitVec.setWidth 8)
      (frameByte 0x201000 5) = 5 := by decide
  exact ⟨k₀, k₁, u, f, hboot, hframes, hbyte ▸ hload⟩

end Result

end EtaOs
