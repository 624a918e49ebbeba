import EtaOs.KernelHeap.ObjectRuns

/-!
# The heap is isolated in physical memory

A program that uses the heap sees pages, and what it sees of them is the memory of blocks.  The
machine has frames behind these pages, and the same frames could be found behind other pages, in
the page tables, or under the bitmap.  A block that shared a byte with one of these would be
changed by a mapping or by a call of `request_page`, and would change the mapping or the mark in
turn, and the program would see nothing wrong until then.

So the blocks have to be apart as frames, and not only as pages.  In every run of the uses of
memory the bytes of the live blocks are different bytes of marked frames, in which there is neither
a page table nor a part of the bitmap.

## What was there before

The frames that were marked when `init_heap` was called belong to somebody else: to the image of
the kernel, to the firmware, or to a part of the kernel that has asked for them.  They stay marked,
no block has a byte in them, and they keep their contents.  Only the frames to which the kernel
itself writes are excepted from the last, the frames of its variables, of its stack and of the
framebuffer, and there the stores are the kernel's own.

Both parts are read off the invariant of the memory of objects, which has been carried through the
run for another purpose.  They are stated for themselves because they are what a reader of physical
memory would check, with no mention of the list of segments.
-/

namespace EtaOs

open ByteMemory RadixTree Simulation

/-- **Where the bytes of the blocks lie**, and what is as it was at the start.  Every byte of a
live block is in a frame that is marked, holds no page table and no part of the bitmap, and no
two bytes are the same byte of memory.  No block has a byte in a frame that was requested beside
the heap, or in one that was held at the start; the latter are still held, and have the contents
they had unless they are the kernel's own. -/
structure Isolated (memMap : List EfiMemoryDescriptor) (root : BitVec 64) (own : Set (BitVec 64))
    (s : Kernel) (u : MemoryState) : Prop where
  backed : ∀ b ∈ u.blocks.live, ∀ i < b.size.toNat, ∃ p, u.machine.phys (b.addr i) = some p ∧
    u.machine.marked (frameIndex p) = true ∧
      ¬ Table u.machine.mem root (frameOf p) ∧ ¬ BitmapFrame memMap (frameIndex p)
  separate : ∀ b ∈ u.blocks.live, ∀ i < b.size.toNat, ∀ c ∈ u.blocks.live, ∀ j < c.size.toNat,
    u.machine.phys (b.addr i) = u.machine.phys (c.addr j) → b = c ∧ i = j
  requested : ∀ f ∈ u.frames, ∀ b ∈ u.blocks.live, ∀ i < b.size.toNat, ∀ p,
    u.machine.phys (b.addr i) = some p → frameOf p ≠ f
  kept : ∀ f, f ≠ 0 → Held memMap root s.mem f s →
    Held memMap root u.machine.mem f u.machine ∧ (f ∉ own → SameOn f 4096 s.mem u.machine.mem) ∧
      ∀ b ∈ u.blocks.live, ∀ i < b.size.toNat, ∀ p,
        u.machine.phys (b.addr i) = some p → frameOf p ≠ f

section Invariant

variable {memMap : List EfiMemoryDescriptor} {root a : BitVec 64} {own K B : Set (BitVec 64)}
  {m : Mem} {n : ℕ} {segs : List Segment} {s : KernelState} {u : MemoryState} {b : Block}

/-- A byte of a live block lies in a frame that is held. -/
theorem BlockInv.exists_held (hinv : BlockInv memMap root a B m n segs s) (hb : b ∈ s.live) {i : ℕ}
    (hi : i < b.size.toNat) : ∃ p, s.heap.machine.phys (b.addr i) = some p ∧
      frameIndex p = frameIndex (frameOf p) ∧
      Held memMap root s.heap.machine.mem (frameOf p) s.heap.machine := by
  obtain ⟨j, hj, f, d, hf, -, hd, hphys⟩ := hinv.exists_backs hb hi
  have hheld := hinv.mirrors.refines.shown.pages.held j hj f hf
  obtain ⟨hframe, hindex⟩ := frame_add hheld.frame hd
  exact ⟨f + d, hphys, hindex.trans (congrArg frameIndex hframe.symm), hframe.symm ▸ hheld⟩

/-- A byte of a live block lies in no frame that is kept. -/
theorem BlockInv.frameOf_ne (hinv : BlockInv memMap root a B m n segs s) (hb : b ∈ s.live) {i : ℕ}
    (hi : i < b.size.toNat) {f p : BitVec 64} (hf : f ∈ B) (hne : f ≠ 0)
    (hp : s.heap.machine.phys (b.addr i) = some p) : frameOf p ≠ f := by
  obtain ⟨j, hj, g, d, hg, -, hd, hphys⟩ := hinv.exists_backs hb hi
  have hheld := hinv.mirrors.refines.shown.pages.held j hj g hg
  rw [hphys] at hp
  obtain rfl := Option.some.inj hp
  rw [(frame_add hheld.frame hd).1]
  rintro rfl
  exact (hinv.mirrors.kept g hf hne).1.apart j hj hg

/-- **The invariant isolates the blocks** from one another and from the frames that are kept. -/
theorem MemoryInv.isolated {k : Kernel} (hinv : MemoryInv memMap root a own K k.mem u)
    (hK : ∀ f, Held memMap root k.mem f k → f ∈ K) : Isolated memMap root own k u := by
  obtain ⟨n, segs, hblocks⟩ := hinv.blocks
  refine ⟨fun b hb i hi => ?_, fun b hb i hi c hc j hj heq => hblocks.phys_inj hb hc hi hj heq,
    fun f hf b hb i hi p hp => hblocks.frameOf_ne hb hi (Or.inl hf) (hinv.frames f hf).1 hp,
    fun f hne hheld => ?_⟩
  · obtain ⟨p, hphys, hindex, hheld⟩ := hblocks.exists_held hb hi
    exact ⟨p, hphys, hindex ▸ hheld.marked, hheld.notTable, hindex ▸ hheld.notBitmap⟩
  · have hf := hK f hheld
    refine ⟨(hblocks.mirrors.kept f (Or.inr hf) hne).1.held, hinv.kept f hf hne,
      fun b hb i hi p hp => hblocks.frameOf_ne hb hi (Or.inr hf) hne hp⟩

end Invariant

/-! ## The result -/

section Result

variable {m : Mem} {info : BootInfo} {a pageCount : BitVec 64} {own : Set (BitVec 64)}
  {k₀ k₁ : KernelHeap PageFrameAllocator} {ops : List MemoryOp} {u : MemoryState}

/-- **The heap is isolated.**  After `prepare_mem`, the clearing of the framebuffer, `init_heap`
and every run of the uses of memory in which no request has returned `NULL`, the bytes of the live
blocks are different bytes of marked frames without page tables or parts of the bitmap, and no
block has a byte in a frame that another part of the kernel has requested.  Every frame but `NULL`
that was marked when `init_heap` was called, and was neither a page table nor part of the bitmap,
is still so, and out of reach of the blocks, with the contents it had unless it is the kernel's
own. -/
theorem kernelHeap_isolated (hboot : HeapBoot m info a pageCount k₀ k₁)
    (hown : ∀ f ∈ own, UsedAtBoot info f)
    (hrun : Steps (MemoryUse info.memMap own ⟨pml4 m info⟩) ⟨⟨k₁, []⟩, []⟩ ops u)
    (hnull : ∀ r ∈ u.machine.requests, r.frame ≠ 0) :
    Isolated info.memMap (pml4 m info) own k₀.machine u := by
  obtain ⟨-, _, -, hinv, -⟩ := hboot.memoryInv_run hown hrun hnull (fun _ _ => 0) fun _ _ => 0
  exact hinv.isolated fun _ hf => hf

/-- With a block, a frame and a variable of the kernel on a machine of 16 MiB. -/
theorem kernelHeap_isolated_sixteenMegabytes : ∃ (k₀ k₁ : KernelHeap PageFrameAllocator)
    (u : MemoryState) (f : BitVec 64),
      HeapBoot (fun _ => 0) (sixteenMegabytes 0x100000) 0x100000000000 1 k₀ k₁ ∧ u.frames = [f] ∧
      u.blocks.live = [⟨0x100000000020, 16⟩] ∧ Isolated (sixteenMegabytes 0x100000).memMap
        (pml4 (fun _ => 0) (sixteenMegabytes 0x100000)) {0x200000} k₀.machine u := by
  obtain ⟨k₀, k₁, u, f, hboot, hrun, hnull, hframes, hlive⟩ :=
    memoryUses_sixteenMegabytes fun _ => 0
  exact ⟨k₀, k₁, u, f, hboot, hframes, hlive,
    kernelHeap_isolated hboot usedAtBoot_variables hrun hnull⟩

end Result

end EtaOs
