import EtaOs.KernelHeap.Objects

/-!
# The memory of the kernel from its start on

When `init_heap` has returned there are no blocks and no frames of others.  From there on every
run of the heap, of `request_page`, of accesses to the frames it returned, of `map_mem`, and of
stores of the kernel's own is a run of the memory of objects.  The frames that were taken before
keep their contents, but for those to which the kernel itself writes.

What the kernel itself writes to is in memory that was in use when it was started, or beyond the
reach of the allocator: its image with the variables, its stack, and the framebuffer.  These frames
are marked, or have no marks, so that no request returns them.

That the invariant holds at the start is the work of this module.  It has to be shown of a machine
whose memory is arbitrary at power-on, behind a boot that has written to the bitmap, to the tables,
to the framebuffer and to the first pages of the heap.

* `UsedAtBoot`: such a frame.
* `HeapBoot.held_usedAtBoot`: it is held when the heap is started.
* `HeapBoot.memoryInv`: the invariant at the start.
* `kernelMemory_refines_objects`: the runs.
-/

namespace EtaOs

open ByteMemory Fallible RadixTree Simulation

/-- **A frame that was in use when the kernel was started**, or is beyond the reach of the
allocator, other than frame 0 and those of the bitmap. -/
structure UsedAtBoot (info : BootInfo) (f : BitVec 64) : Prop where
  frame : IsFrame f
  ne : f ≠ 0
  notBitmap : ¬ BitmapFrame info.memMap (frameIndex f)
  used : BootFrame info (frameIndex f) ∨ reach info.memMap ≤ frameIndex f

section Start

variable {m : Mem} {info : BootInfo} {a pageCount f : BitVec 64} {own K : Set (BitVec 64)}
  {k₀ k₁ : KernelHeap PageFrameAllocator}

/-- **A frame that was in use at the start is held** when the framebuffer has been cleared, and
building the page tables has not written to it. -/
theorem HeapBoot.held_usedAtBoot (hboot : HeapBoot m info a pageCount k₀ k₁)
    (hnull : ∀ r ∈ k₀.machine.requests, r.frame ≠ 0) (hf : UsedAtBoot info f)
    (hreach : frameIndex f < reach info.memMap) :
    pml4 m info ≠ f ∧ Held info.memMap (pml4 m info)
      (clearedMemory info (clearedPml4 m info).mem) f k₀.machine := by
  have hwf := hboot.wellFormed
  obtain ⟨s, hrun, hk₀, -, hrec, hid, htable⟩ := hboot.prepared hnull
  have hgranted : ∀ r ∈ s.requests, Granted info.memMap r := by
    refine hrec.granted hboot.size_le fun r hr => hnull r ?_
    rw [hk₀]
    exact hr
  have hlast : frameIndex f ≤ (initialBitmap info.memMap).last := by
    have hlast := initialBitmap_last info.memMap
    unfold reach at hreach
    omega
  have hused : BootFrame info (frameIndex f) := hf.used.resolve_right (by omega)
  obtain ⟨hkept, -⟩ := keptByBoot hwf hboot.frameBuf hrun hgranted
  obtain ⟨hne, h⟩ := hkept f hf.frame hreach (marked_of_bootFrame hlast hused) hf.notBitmap
  rw [hk₀]
  exact ⟨hne, h.clearScreen hwf hboot.screen htable hid.tables.alloc⟩

/-- Frames that were in use at the start may be the kernel's own. -/
theorem ownFrames_of_usedAtBoot (hown : ∀ f ∈ own, UsedAtBoot info f)
    (hK : ∀ f ∈ own, frameIndex f < reach info.memMap → f ∈ K) :
    OwnFrames info.memMap own K where
  frame := fun f hf => (hown f hf).frame
  ne := fun f hf => (hown f hf).ne
  notBitmap := fun f hf => (hown f hf).notBitmap
  apart := fun f hf =>
    (Nat.lt_or_ge (frameIndex f) (reach info.memMap)).imp_left (hK f hf)

/-- **At the start** the heap is one free segment, and the frames held before keep what they
hold. -/
theorem HeapBoot.memoryInv (hboot : HeapBoot m info a pageCount k₀ k₁)
    (hnull : ∀ r ∈ k₁.machine.requests, r.frame ≠ 0)
    (hK : ∀ f ∈ K, Held info.memMap (pml4 m info) k₀.machine.mem f k₀.machine)
    (hown : OwnFrames info.memMap own K) :
    (1 ≤ totalFrames info.memMap ∧ IsFrame (pml4 m info)) ∧ Recorded info.memMap k₁.machine ∧
      MemoryInv info.memMap (pml4 m info) a own K k₀.machine.mem ⟨⟨k₁, []⟩, []⟩ := by
  obtain ⟨⟨hpages, hroot⟩, hid, hzero, hrec⟩ := hboot.start hnull
  have hblocks := hboot.blockInv hpages hroot hid hzero hK (hrec.granted hboot.size_le hnull)
  have hset : {f | f ∈ ([] : List (BitVec 64))} ∪ K = K := by simp
  refine ⟨⟨hpages, hroot⟩, hrec, ⟨⟨_, _, hset.symm ▸ hblocks.rebase⟩, ?_, hown,
    fun f hf hne _ => ?_, hblocks.mirrors.far.but own⟩⟩
  · exact fun f hf => absurd hf List.not_mem_nil
  · exact (hblocks.mirrors.kept f hf hne).2

/-- There are no objects at the start. -/
theorem holdsObjects_start (k : KernelHeap PageFrameAllocator) (bytes : Block → ℕ → BitVec 8)
    (contents : BitVec 64 → ℕ → BitVec 8) :
    HoldsObjects ⟨⟨k, []⟩, []⟩ ⟨⟨[], bytes⟩, [], contents⟩ where
  blocks := ⟨rfl, fun _ hb => absurd hb List.not_mem_nil⟩
  frames := rfl
  contents := fun _ hf => absurd hf List.not_mem_nil

end Start

/-! ## The result -/

section Result

variable {m : Mem} {info : BootInfo} {a pageCount : BitVec 64} {own : Set (BitVec 64)}
  {k₀ k₁ : KernelHeap PageFrameAllocator} {ops : List MemoryOp} {u : MemoryState}

/-- When `init_heap` has returned, the frames that were held when it was called are kept. -/
theorem HeapBoot.heldInv (hboot : HeapBoot m info a pageCount k₀ k₁)
    (hown : ∀ f ∈ own, UsedAtBoot info f) (hnull : ∀ r ∈ k₁.machine.requests, r.frame ≠ 0) :
    (1 ≤ totalFrames info.memMap ∧ IsFrame (pml4 m info)) ∧ Recorded info.memMap k₁.machine ∧
      MemoryInv info.memMap (pml4 m info) a own
        {f | Held info.memMap (pml4 m info) k₀.machine.mem f k₀.machine} k₀.machine.mem
        ⟨⟨k₁, []⟩, []⟩ :=
  hboot.memoryInv hnull (fun _ hf => hf) <| ownFrames_of_usedAtBoot hown fun f hf hreach =>
    { (hboot.held_usedAtBoot (fun r hr => hnull r (hboot.recorder.subset hr)) (hown f hf)
      hreach).2 with same := SameOn.refl _ _ _ }

/-- Every run from the start on keeps them, and is a run of the memory of objects. -/
theorem HeapBoot.memoryInv_run (hboot : HeapBoot m info a pageCount k₀ k₁)
    (hown : ∀ f ∈ own, UsedAtBoot info f)
    (hrun : Steps (MemoryUse info.memMap own ⟨pml4 m info⟩) ⟨⟨k₁, []⟩, []⟩ ops u)
    (hnull : ∀ r ∈ u.machine.requests, r.frame ≠ 0) (bytes : Block → ℕ → BitVec 8)
    (contents : BitVec 64 → ℕ → BitVec 8) :
    1 ≤ totalFrames info.memMap ∧ ∃ t, Steps Objects.Step ⟨⟨[], bytes⟩, [], contents⟩ ops t ∧
      MemoryInv info.memMap (pml4 m info) a own
        {f | Held info.memMap (pml4 m info) k₀.machine.mem f k₀.machine} k₀.machine.mem u ∧
      HoldsObjects u t := by
  have hgrow : Recorder k₁ u.blocks.heap := memoryUses_moves recorder_requestPage hrun
  obtain ⟨⟨hpages, hroot⟩, hrec, hstart⟩ :=
    hboot.heldInv hown fun r hr => hnull r (hgrow.subset hr)
  exact ⟨hpages, memoryUses_run hboot.wellFormed hpages hboot.size_le hroot hstart
    (holdsObjects_start k₁ bytes contents) hrec hrun hnull⟩

/-- **The memory of the kernel is a memory of separate objects.**  After `prepare_mem` and
`init_heap`, every run of the uses of memory, in any order, in which the calls of the heap keep
the payloads apart, pages are mapped outside the heap, what the kernel stores on its own account
goes to frames that were in use at the start, and no request has returned `NULL`, is a run of the
memory of objects: a frame that is requested is none of those before it, and what is loaded from a
block or a frame is what was stored last in the same place of it.  At the end every byte of every
object is loaded as the memory of objects has it, and every frame but `NULL` and the kernel's own
that was held when `init_heap` was called has the contents it had, as do those beyond reach. -/
theorem kernelMemory_refines_objects (hboot : HeapBoot m info a pageCount k₀ k₁)
    (hown : ∀ f ∈ own, UsedAtBoot info f)
    (hrun : Steps (MemoryUse info.memMap own ⟨pml4 m info⟩) ⟨⟨k₁, []⟩, []⟩ ops u)
    (hnull : ∀ r ∈ u.machine.requests, r.frame ≠ 0) (bytes : Block → ℕ → BitVec 8)
    (contents : BitVec 64 → ℕ → BitVec 8) :
    ∃ t, Steps Objects.Step ⟨⟨[], bytes⟩, [], contents⟩ ops t ∧
      t.blocks.live = u.blocks.live ∧ t.frames = u.frames ∧
      (∀ b ∈ u.blocks.live, ∀ i < b.size.toNat,
        u.machine.load8 (b.addr i) = some (t.blocks.bytes b i)) ∧
      (∀ f ∈ u.frames, ∀ i < 4096, u.machine.load8 (frameByte f i) = some (t.contents f i)) ∧
      (∀ f, f ≠ 0 → f ∉ own → Held info.memMap (pml4 m info) k₀.machine.mem f k₀.machine →
        SameOn f 4096 k₀.machine.mem u.machine.mem) ∧
      SameFarBut info.memMap own k₀.machine.mem u.machine.mem := by
  obtain ⟨hpages, t, hsteps, hinv, hholds⟩ := hboot.memoryInv_run hown hrun hnull bytes contents
  obtain ⟨n, segs, hblocks⟩ := hinv.blocks
  refine ⟨t, hsteps, hholds.blocks.live, hholds.frames, fun b hb i hi => ?_, fun f hf i hi => ?_,
    fun f hne hnot hf => hinv.kept f hf hne hnot, hinv.far⟩
  · rw [hblocks.load8 hb hi, hholds.blocks.bytes b hb i hi]
  · rw [hinv.load8 hpages hf hi, hholds.contents f hf i hi]

/-- The frames of the kernel are four, from 2 MiB on. -/
theorem usedAtBoot_kernel {f : BitVec 64} (hf : IsFrame f) (hlo : 0x200 ≤ frameIndex f)
    (hhi : frameIndex f < 0x204) : UsedAtBoot (sixteenMegabytes 0x100000) f := by
  have hbase : (0x100000 : BitVec 64) = 0 ∨ (0x100000 : BitVec 64) = 0x100000 := Or.inr rfl
  refine ⟨hf, ?_, fun hbitmap => ?_, Or.inl (Or.inl ?_)⟩
  · rintro rfl
    exact absurd hlo (by decide)
  · have hle := bitmapFrame_sixteenMegabytes hbase hbitmap
    have hbound : (0x100000 : BitVec 64).toNat = 0x100000 := rfl
    omega
  · have hstart : (0x200000 : BitVec 64).toNat / 4096 = 0x200 := by decide
    have hcount : ((0x204000 - 0x200000) / 4096 + 1 : BitVec 64).toNat = 5 := by decide
    have hloop : LoopFrames 0x200000 ((0x204000 - 0x200000) / 4096 + 1) (frameIndex f) :=
      (loopFrames_iff (by decide) (by decide)).mpr ⟨by omega, by omega⟩
    exact hloop

/-- The first of them holds the variables. -/
theorem usedAtBoot_variables : ∀ f ∈ ({0x200000} : Set (BitVec 64)),
    UsedAtBoot (sixteenMegabytes 0x100000) f := by
  rintro f rfl
  exact usedAtBoot_kernel (by decide) (by decide) (by decide)

/-- A frame is requested and a page is mapped before a block is taken.  A byte of the frame is
as it was stored, after a store to the block and one to a variable of the kernel. -/
theorem memoryUses_sixteenMegabytes (m : Mem) : ∃ (k₀ k₁ : KernelHeap PageFrameAllocator)
    (u : MemoryState) (f : BitVec 64),
      HeapBoot m (sixteenMegabytes 0x100000) 0x100000000000 1 k₀ k₁ ∧
      Steps (MemoryUse (sixteenMegabytes 0x100000).memMap {0x200000}
          ⟨pml4 m (sixteenMegabytes 0x100000)⟩) ⟨⟨k₁, []⟩, []⟩
        [.request f, .map 0x100000001000 0x100000001000, .block (.malloc 16 0x100000000020),
          .put f 0 7, .block (.store ⟨0x100000000020, 16⟩ 3 9), .own 0x200008 1, .get f 0 7] u ∧
      (∀ r ∈ u.machine.requests, r.frame ≠ 0) ∧ u.frames = [f] ∧
      u.blocks.live = [⟨0x100000000020, 16⟩] := by
  obtain ⟨k₀, k₁, hboot, hsupply⟩ := heapBoot_sixteenMegabytes m
  have hwf := hboot.wellFormed
  have hsize := hboot.size_le
  have hOk₁ : AllGranted (sixteenMegabytes 0x100000).memMap ⟨k₁, []⟩ :=
    fun r hr => (hsupply.tables.given r hr).2
  obtain ⟨⟨hpages, hroot⟩, hid, hheld, -⟩ := hboot.start fun r hr => (hOk₁ r hr).1
  have hkernel : ∀ f ∈ ({0x200000} : Set (BitVec 64)), Held (sixteenMegabytes 0x100000).memMap
      (pml4 m (sixteenMegabytes 0x100000)) k₀.machine.mem f k₀.machine := by
    rintro f rfl
    obtain ⟨-, h⟩ := hboot.held_usedAtBoot (fun r hr => (hOk₁ r (hboot.recorder.subset hr)).1)
      (usedAtBoot_variables _ rfl) (by rw [reach_sixteenMegabytes (Or.inr rfl)]; decide)
    exact { h with same := SameOn.refl _ _ _ }
  have hinv₁ := hboot.blockInv hpages hroot hid hheld hkernel hOk₁
  -- the frame
  obtain ⟨hinv₂, -, hother⟩ := hinv₁.request hwf hroot hsupply.granted
  have hsupply₂ := hsupply.takeFrame hwf hroot
  -- the page, which is the one behind the heap
  have hallowed : KeepsMemory (sixteenMegabytes 0x100000).memMap 0x100000001000 0x100000001000 :=
    ⟨by decide, Or.inl rfl⟩
  have hM := mapInv_paged hwf (mapInv_supply (S := lowPaths) (L := fun k => 3072 ≤ k) (n := 0) hwf
    (mapInv_memory hwf hpages hsize hroot)) fun _ hI => hI.1
  have hI := And.intro hinv₂.mirrors.refines.shown.pages.identity hsupply₂
  have hpath : PathsIn lowPaths 0x100000001000 := pathsIn_heapStart (by decide)
  obtain ⟨s₃, hmap⟩ := hM.mapMem_total hI ⟨hallowed, hpath⟩
  obtain ⟨⟨-, hsupply₃⟩, -⟩ := hM.mapMem_spec hI ⟨hallowed, hpath⟩ hmap fun _ _ => trivial
  let k₂ : KernelHeap PageFrameAllocator :=
    { k₁ with machine := (k₁.machine.takeFrame bootAllocator).2 }
  let k₃ : KernelHeap PageFrameAllocator :=
    { k₂ with
      machine := s₃
      mapCalls := ⟨k₂.machine, 0x100000001000, 0x100000001000⟩ :: k₂.mapCalls }
  have hmapRun : HeapM.mapMem globalAllocator ⟨pml4 m (sixteenMegabytes 0x100000)⟩
      0x100000001000 0x100000001000 k₂ = some ((), k₃) := by
    rw [HeapM.mapMem, hmap]
    rfl
  have hout : k₂.heapEnd.toNat ≤ (0x100000001000 : BitVec 64).toNat := by
    have hend : k₂.heapEnd.toNat = 0x100000000000 + 4096 * 1 := hinv₂.bounds_toNat.2
    rw [hend]
    decide
  obtain ⟨hinv₃, -⟩ := hinv₂.mapMem hwf hroot hpages hsize hallowed (Or.inr hout) hmapRun
    fun r hr => (hsupply₃.tables.given r hr).2
  -- the block, and the objects from here on
  obtain ⟨k₄, hmalloc, n, segs, hinv₄⟩ := hinv₃.malloc_onePage hwf hpages hsize hroot
  let f := (requestPage k₁.machine).1
  have hrequest : HeapM.requestPage globalAllocator k₁ = some (f, k₂) :=
    requestPage_of_identityInv hwf hroot hinv₁.mirrors.refines.shown.pages.identity
  let b : Block := ⟨0x100000000020, 16⟩
  have hf : f ∈ [f] := List.mem_singleton_self f
  have hb : b ∈ [b] := List.mem_singleton_self b
  have hset : insert f {0x200000} = {g | g ∈ [f]} ∪ ({0x200000} : Set (BitVec 64)) := by
    simp only [List.mem_singleton, Set.ofPred_eq_eq_singleton, Set.insert_eq]
  have hown : OwnFrames (sixteenMegabytes 0x100000).memMap {0x200000} {0x200000} :=
    ownFrames_of_usedAtBoot usedAtBoot_variables fun _ hg _ => hg
  have hobjects : MemoryInv (sixteenMegabytes 0x100000).memMap
      (pml4 m (sixteenMegabytes 0x100000)) 0x100000000000 {0x200000} {0x200000} k₄.machine.mem
      ⟨⟨k₄, [b]⟩, [f]⟩ := by
    refine ⟨⟨n, segs, hset ▸ hinv₄.rebase⟩, fun g hg => ?_, hown, fun g hg _ hnot =>
      absurd hg hnot, (SameFar.refl _ _).but _⟩
    obtain rfl := List.mem_singleton.mp hg
    refine ⟨hsupply.granted.1, fun heq => ?_⟩
    exact (hother _ rfl (by decide)).1 (Set.mem_singleton_iff.mp heq).symm
  obtain ⟨_, k₅, hput, hobjects₅, -, hbyte⟩ := hobjects.put hwf hpages hroot hf (i := 0)
    (by decide) 7
  obtain ⟨n₅, segs₅, hinv₅⟩ := hobjects₅.blocks
  have hi : 3 < b.size.toNat := by decide
  obtain ⟨_, k₆, hstore, hinv₆, -⟩ := hinv₅.store hwf hroot hb hi 9
  obtain ⟨hobjects₆, hsame⟩ := hobjects₅.of_blocks hinv₆
  -- the variable of the kernel
  have hphys : k₆.machine.phys 0x200008 = some (frameByte 0x200000 8) :=
    hinv₆.direct hpages (f := 0x200000) (Or.inr rfl) (by decide) (by decide)
  obtain ⟨k₇, hvariable⟩ : ∃ k₇, HeapM.store8 0x200008 1 k₆ = some ((), k₇) :=
    ⟨_, store8_of_phys 1 hphys⟩
  obtain ⟨hobjects₇, -, hsame'⟩ :=
    hobjects₆.own_store hwf hroot (f := 0x200000) rfl (by decide) hphys hvariable
  have hload : k₇.machine.load8 (frameByte f 0) = some (k₇.machine.mem (frameByte f 0)) :=
    hobjects₇.load8 hpages hf (by decide)
  have hseven : k₇.machine.mem (frameByte f 0) = 7 := by
    rw [hsame' f hf 0 (by decide)]
    refine (hsame f hf 0 (by decide)).trans ?_
    exact (hbyte f hf 0 (by decide)).trans (if_pos ⟨rfl, rfl⟩)
  have hget : HeapM.load8 (frameByte f 0) k₇ = some (7, k₇) := by
    rw [HeapM.load8, hload, hseven, Option.map_some]
  refine ⟨k₀, k₁, ⟨⟨k₇, [b]⟩, [f]⟩, f, hboot,
    Steps.cons _ _ _ _ _ (MemoryUse.request _ f k₂ hrequest) <|
    Steps.cons _ _ _ _ _ (MemoryUse.map _ _ _ k₃ hallowed (Or.inr hout) hmapRun) <|
    Steps.cons _ _ _ _ _ (MemoryUse.block _ _ _ hmalloc) <|
    Steps.cons _ _ _ _ _ (MemoryUse.put _ f 0 7 k₅ hf (by decide) hput) <|
    Steps.cons _ _ _ _ _ (MemoryUse.block _ _ _ ⟨KernelUse.store _ b 3 9 k₆ hb hi hstore,
      trivial⟩) <|
    Steps.cons _ _ _ _ _ (MemoryUse.own _ _ 0x200000 8 1 k₇ rfl (by decide) hphys hvariable) <|
    Steps.single (MemoryUse.get _ f 0 7 k₇ hf (by decide) hget), fun r hr => ?_, rfl, rfl⟩
  obtain ⟨_, _, hinv₇⟩ := hobjects₇.blocks
  exact (hinv₇.mirrors.refines.shown.pages.identity.tables.given r hr).2.1

/-- The memory of objects makes the same run. -/
theorem kernelMemory_refines_objects_sixteenMegabytes : ∃ (k₀ k₁ : KernelHeap PageFrameAllocator)
    (f : BitVec 64) (t : Objects),
      HeapBoot (fun _ => 0) (sixteenMegabytes 0x100000) 0x100000000000 1 k₀ k₁ ∧
      Steps Objects.Step ⟨⟨[], fun _ _ => 0⟩, [], fun _ _ => 0⟩
        [.request f, .map 0x100000001000 0x100000001000, .block (.malloc 16 0x100000000020),
          .put f 0 7, .block (.store ⟨0x100000000020, 16⟩ 3 9), .own 0x200008 1, .get f 0 7] t ∧
      t.frames = [f] := by
  obtain ⟨k₀, k₁, u, f, hboot, hrun, hnull, hframes, -⟩ := memoryUses_sixteenMegabytes fun _ => 0
  obtain ⟨t, hsteps, -, heq, -⟩ := kernelMemory_refines_objects hboot usedAtBoot_variables hrun
    hnull (fun _ _ => 0) fun _ _ => 0
  exact ⟨k₀, k₁, f, t, hboot, hsteps, heq.trans hframes⟩

end Result

end EtaOs
