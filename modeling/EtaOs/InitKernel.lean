import EtaOs.Interrupts.Running
import EtaOs.KernelHeap.Scanning

/-!
# `init_kernel`

`init_kernel` prepares the memory, clears the framebuffer, starts the heap, loads the interrupt
table and scans the buses.  Each part works in the memory that the parts before it have left: the
heap is mapped by the page tables, the interrupt table is in a frame that the heap must not take,
and the scan maps pages and draws while it reads the tables of the firmware.

What each part needs is known, and what it leaves.  The whole is a matter of having enough of it:
enough frames for all the tables, a framebuffer that the mapping of the heap does not hide, and
tables of the firmware that nobody writes to.  Then `init_kernel` returns, and from there on the
kernel runs as two systems side by side, of which neither disturbs what `init_kernel` has set up.

* `initKernel`: the calls.
* `Bootable`: a machine with what they need.
* `scanned`: the renderer behind the scan.
* `KeepsBoot`: what they have set up is in place.
* `Ready`, `Bootable.ready`: what `init_kernel` leaves.
* `initKernel_ready`: `init_kernel` returns, and what it has set up stays in place.
-/

namespace EtaOs

open BasicRenderer ByteMemory Fallible PIC Pic8259 RadixTree Simulation PCI

/-! ## The calls -/

/-- Where `init_kernel` starts the heap. -/
def heapAddr : Addr := 0x0000100000000000

/-- What `init_kernel` leaves: the machine with the globals of the heap, the register of the
interrupt table, and the cursor. -/
structure Initialized where
  heap : KernelHeap PageFrameAllocator
  idtr : Idtr
  cursor : Point

/-- `init_kernel` from `prepare_mem` to `prepare_acpi`.  The globals of the heap are zero before
`init_heap`, and so is the cursor before the scan. -/
def initKernel (m : Mem) (info : BootInfo) (h : Handlers) (t : Target) (glyphBuffer rsdp : Addr) :
    Option Initialized := do
  let s ← prepareMem (bootKernel m) info
  let s ← clearScreen info s
  let (_, k) ← HeapM.initHeap globalAllocator ⟨pml4 m info⟩ heapAddr 16 ⟨s, [], 0, 0, 0⟩
  let (idtr, k) ← HeapM.prepareInterrupts globalAllocator h k
  let (cursor, k) ← HeapM.prepareAcpi globalAllocator ⟨pml4 m info⟩ t glyphBuffer rsdp ⟨0, 0⟩ k
  return ⟨k, idtr, cursor⟩

/-! ## Statement -/

/-- The renderer when the walk on the memory of the boot loader has been printed on a clear
screen. -/
def scanned (m : Mem) (info : BootInfo) (t : Target) (rsdp : Addr) : BasicRenderer :=
  render t (reportOps (prepareAcpi (clearedMemory info m) rsdp)) (init fun _ => 0)

/-- **A machine on which `init_kernel` has what it needs.**  `own` are the frames of the variables
of the kernel, `S` are the paths of all tables, and `L` are frames that include those of the
framebuffer.  The frames that are unmarked before paging and not in `L` are enough for the tables,
the 16 pages of the heap and the interrupt table, and `n` more. -/
structure Bootable (m : Mem) (info : BootInfo) (t : Target) (glyphBuffer rsdp : Addr)
    (own : Set (BitVec 64)) (S : Finset (List (BitVec 9))) (L : ℕ → Prop) [DecidablePred L]
    (n : ℕ) : Prop where
  wellFormed : WellFormedMap info.memMap
  size : (totalMem info.memMap).toNat ≤ 2 ^ 44
  frameBuf : FrameBufInReach info
  frameBufLow : 4096 ≤ info.baseAdress.toNat
  frameBufBelow : info.baseAdress.toNat + info.bufferSize.toNat + 4096 ≤ 2 ^ 48
  frameBufApart : ∀ x, ScreenByte info x →
    x.toNat < heapAddr.toNat ∨ heapAddr.toNat + 4096 * 16 ≤ x.toNat
  screen : ScreenApart info
  notBitmap : ¬ BitmapFrame info.memMap 0
  bitmap : BitmapBelow info.memMap
  ownUsed : ∀ f ∈ own, UsedAtBoot info f
  locked : ∀ k < reach info.memMap, LoopFrames info.baseAdress (frameBufPages info) k → L k
  memoryPaths : ∀ i, Visited 0 (totalMem info.memMap) i → PathsIn S i
  framePaths : ∀ i, Visited info.baseAdress (frameBufEnd info) i → PathsIn S i
  heapPaths : ∀ j < 16, PathsIn S (heapPage heapAddr j)
  room : S.card + (n + 17) + 1 < (unmarked info.memMap L (beforePaging m info)).card
  draws : DrawsOn info t
  font : FontAt info (own ∪ screenFrames info) m t glyphBuffer
  charsize : t.psf1Header.charsize ≠ 0
  tables : TablesIn {x | ImageByte info (own ∪ screenFrames info) x} (clearedMemory info m) rsdp
  events : ∀ e ∈ prepareAcpi (clearedMemory info m) rsdp,
    EventOk (ConfigPage info (own ∪ screenFrames info) S heapAddr (heapAddr + 0x10000)) e
  inside : StoresInside t (scanned m info t rsdp)

/-- **What `init_kernel` has set up is in place**: the interrupt table is as it was loaded, and what
the boot loader left is as it was, but for the frames of the kernel's own and those of the
framebuffer. -/
structure KeepsBoot (m : Mem) (info : BootInfo) (own : Set (BitVec 64)) (h : Handlers) (idtr : Idtr)
    (t : BitVec 8 → IDTDescEntry) (s : Kernel) : Prop where
  loaded : Loaded h idtr t s
  image : ∀ f, BootImage info f → f ∉ own → f ∉ screenFrames info → ∀ i < 4096,
    s.load8 (frameByte f i) = some (m (frameByte f i))

/-! ## Up to `init_heap` -/

variable {m : Mem} {info : BootInfo} {t : Target} {glyphBuffer rsdp : Addr} {own : Set (BitVec 64)}
  {S : Finset (List (BitVec 9))} {L : ℕ → Prop} [DecidablePred L] {n : ℕ}

/-- **The heap is started**, and frames are left. -/
theorem Bootable.heapBoot (hb : Bootable m info t glyphBuffer rsdp own S L n) : ∃ s k₁,
    prepareMem (bootKernel m) info = some s ∧ clearScreen info s = some (screenCleared info s) ∧
      HeapM.initHeap globalAllocator ⟨pml4 m info⟩ heapAddr 16
        ⟨screenCleared info s, [], 0, 0, 0⟩ = some ((), k₁) ∧
      HeapBoot m info heapAddr 16 ⟨screenCleared info s, [], 0, 0, 0⟩ k₁ ∧
      Supply info.memMap (pml4 m info) S L (n + 1) k₁.machine ∧
      ScreenMapped info k₁.machine := by
  have hstart : heapAddr.toNat = 2 ^ 44 := rfl
  have hpaths : ∀ j < (16 : BitVec 64).toNat, PathsIn S (heapPage heapAddr j) := hb.heapPaths
  have hroom : S.card + (n + 1 + (16 : BitVec 64).toNat) + 1 <
      (unmarked info.memMap L (beforePaging m info)).card := hb.room
  obtain ⟨s, k₁, hrun, hclear, hinit, hboot, hsupply, hmapped⟩ := exists_heapBoot hb.wellFormed
    hb.frameBuf hb.frameBufBelow hb.screen hb.notBitmap hb.bitmap rfl (hstart ▸ hb.size)
    (by decide) (by decide) hb.locked hb.memoryPaths hb.framePaths hpaths hroom
  exact ⟨s, k₁, hrun, hclear, hinit, hboot, hsupply,
    fun x hx => hmapped x hx (hb.frameBufApart x hx)⟩

/-! ## Up to the end -/

/-- **What `init_kernel` leaves**, when `prepare_interrupts` was called on the machine `s`.  The
frame of the interrupt table is kept beside those that the boot loader left, and the scan has drawn
what is on the screen. -/
structure Ready (m : Mem) (info : BootInfo) (t : Target) (glyphBuffer rsdp : Addr)
    (own : Set (BitVec 64)) (h : Handlers) (s : Kernel) (k : KernelHeap PageFrameAllocator) :
    Prop where
  pages : 1 ≤ totalFrames info.memMap
  root : IsFrame (pml4 m info)
  frame : (requestPage s).1 ≠ 0
  notOwn : (requestPage s).1 ∉ own ∪ screenFrames info
  drawable : Drawable info t glyphBuffer (pml4 m info) heapAddr (own ∪ screenFrames info)
    (insert (requestPage s).1 (imageFrames info)) (prepareInterrupts h s).2.mem
  back : ∀ u, MemoryInv info.memMap (pml4 m info) heapAddr (own ∪ screenFrames info)
      (insert (requestPage s).1 (imageFrames info)) (prepareInterrupts h s).2.mem u →
    MemoryInv info.memMap (pml4 m info) heapAddr (own ∪ screenFrames info) (imageFrames info)
      (clearedMemory info m) u
  drawn : ∀ (bytes : Block → ℕ → BitVec 8) (contents : BitVec 64 → ℕ → BitVec 8),
    DrawnInv info t (pml4 m info) heapAddr (own ∪ screenFrames info)
      (insert (requestPage s).1 (imageFrames info)) (prepareInterrupts h s).2.mem
      (∀ f ∈ screenFrames info, f ∉ own) ⟨⟨k, []⟩, []⟩ ⟨⟨[], bytes⟩, [], contents⟩
      (scanned m info t rsdp)
  tables : TablesInv info.memMap (pml4 m info) k.machine
  maps : ((mappedPages (prepareAcpi (clearedMemory info m) rsdp)).map fun p => (p, p)).reverse <+:
    k.maps

/-- **`init_kernel` returns.** -/
theorem Bootable.ready (hb : Bootable m info t glyphBuffer rsdp own S L n) (h : Handlers) :
    ∃ s k, initKernel m info h t glyphBuffer rsdp =
        some ⟨k, (prepareInterrupts h s).1, (scanned m info t rsdp).cursorPosition⟩ ∧
      Ready m info t glyphBuffer rsdp own h s k := by
  obtain ⟨s, k₁, hrun, hclear, hinit, hboot, hsupply, hmapped⟩ := hb.heapBoot
  have hwf := hb.wellFormed
  have hnull : ∀ r ∈ k₁.machine.requests, r.frame ≠ 0 :=
    fun r hr => (hsupply.tables.given r hr).2.1
  obtain ⟨⟨hpages, hroot⟩, -, hstart⟩ := hboot.imageInv hb.size hb.ownUsed hnull
  obtain ⟨_, _, hblocks⟩ := hstart.blocks
  have hid := hblocks.mirrors.refines.shown.pages.identity
  -- the interrupt table
  have hidt : ∀ page k, HeapM.requestPage globalAllocator k₁ = some (page, k) → page ≠ 0 := by
    intro page k heq
    rw [requestPage_of_identityInv hwf hroot hid] at heq
    obtain ⟨rfl, -⟩ := Prod.mk.inj (Option.some.inj heq)
    exact hsupply.granted.1
  obtain ⟨-, ⟨hne, hnot⟩, hcall, -, hdraw, hback, hdrawn⟩ := hboot.drawnInv
    (b := ⟨0, t, h, k₁.machine⟩) hb.size hb.frameBufLow hb.ownUsed hb.draws hb.font rfl hnull hidt
  have hmapped₂ : ScreenMapped info (interruptsPrepared h k₁).machine := fun x hx =>
    (phys_interruptsPrepared hwf hroot hsupply.tables hid.cr3 hsupply.granted h x).trans
      (hmapped x hx)
  -- the scan
  obtain ⟨hbottom, htop⟩ := hboot.bounds hnull
  have hevents : ∀ e ∈ prepareAcpi (clearedMemory info m) rsdp,
      EventOk (ConfigPage info (own ∪ screenFrames info) S k₁.heapStart k₁.heapEnd) e := by
    rw [hbottom, htop]
    exact hb.events
  have hscan := fun bytes contents => DrawnInv.prepareAcpi hwf hpages hboot.size_le hroot
    hb.frameBufBelow Set.subset_union_right hb.draws (hdrawn (init fun _ => 0) bytes contents)
    hdraw.glyphs hback hmapped₂ (hsupply.prepareInterrupts hwf hroot h) hb.charsize hb.tables
    hevents hb.inside
  obtain ⟨_, k, hscanned, rfl, hk⟩ := hscan (fun _ _ => 0) fun _ _ => 0
  have hmaps := hk.maps ▸ List.prefix_append _ _
  refine ⟨k₁.machine, k, ?_, hpages, hroot, hne, hnot, hdraw, hback, fun bytes contents => ?_,
    hk.supply.tables, hmaps⟩
  · have hcall' : HeapM.prepareInterrupts globalAllocator h k₁ =
        some ((prepareInterrupts h k₁.machine).1, interruptsPrepared h k₁) := hcall
    have hscanned' : HeapM.prepareAcpi globalAllocator ⟨pml4 m info⟩ t glyphBuffer rsdp ⟨0, 0⟩
        (interruptsPrepared h k₁) = some ((scanned m info t rsdp).cursorPosition, k) := hscanned
    simp only [initKernel, hrun, hclear, hinit, hcall', hscanned', Option.bind_eq_bind,
      Option.bind_some, Option.pure_def]
  · exact ((hscan bytes contents).of_eq hscanned).2.drawn.of_alone
      fun halone => ⟨fun _ _ _ => rfl, halone⟩

/-! ## The result -/

/-- **`init_kernel` returns, and what it has set up stays in place.**  On a machine with what it
needs, no access of `init_kernel` faults and no request returns `NULL`; the scan maps the pages of
the walk on the memory that the boot loader left, and prints what it reports.  From there on, in
every interleaving of the accesses to the ports, of keys, timer and other devices, of interrupts
taken through the table in memory, of the statements of the handlers with what they draw, and of the
uses of memory by the kernel, in which no request has returned `NULL`: the devices and the processor
make a run of the system whose table is fixed, the memory makes a run of the memory of objects, and
the interrupt table and what the boot loader left are as they were.  If the kernel itself leaves the
framebuffer alone, its bytes are the pixels that the scan and the handler have drawn. -/
theorem initKernel_ready (hb : Bootable m info t glyphBuffer rsdp own S L n) (next : BitVec 8)
    (h : Handlers) :
    ∃ kernel k idtr, initKernel m info h t glyphBuffer rsdp =
        some ⟨k, idtr, (scanned m info t rsdp).cursorPosition⟩ ∧
      (∀ r ∈ k.machine.requests, r.frame ≠ 0) ∧
      ((mappedPages (prepareAcpi (clearedMemory info m) rsdp)).map fun p => (p, p)).reverse <+:
        k.maps ∧
      ∀ full s labels u, s.keyboard.globalRenderer = scanned m info t rsdp →
        Steps (RunningStep ⟨next, t, h, kernel⟩ full info own glyphBuffer idtr ⟨pml4 m info⟩)
          ⟨s, ⟨⟨k, []⟩, []⟩⟩ labels u →
        (∀ r ∈ u.memory.machine.requests, r.frame ≠ 0) →
        Steps (DeliveryStep ⟨next, t, h, kernel⟩ full) s (labels.filterMap Sum.getLeft?) u.system ∧
        KeepsBoot m info own h idtr (frameTable kernel) u.memory.machine ∧
        ((∀ f ∈ screenFrames info, f ∉ own) →
          ShowsPixels t u.memory.machine.mem u.system.keyboard.globalRenderer) ∧
        ∀ (bytes : Block → ℕ → BitVec 8) (contents : BitVec 64 → ℕ → BitVec 8), ∃ o,
          Steps Objects.Step ⟨⟨[], bytes⟩, [], contents⟩ (labels.filterMap Sum.getRight?) o ∧
            HoldsObjects u.memory o := by
  obtain ⟨s, k, hcall, hready⟩ := hb.ready h
  refine ⟨s, k, _, hcall, fun r hr => (hready.tables.given r hr).2.1, hready.maps,
    fun full sys labels u hrenderer hruns hnull => ?_⟩
  have hsize : (totalMem info.memMap).toNat ≤ 2 ^ 48 := hb.size.trans (by decide)
  have hmem : (requestPage s).1 ∈ insert (requestPage s).1 (imageFrames info) :=
    Set.mem_insert _ _
  have hrunning := fun bytes contents => running_run (b := ⟨next, t, h, s⟩) hb.wellFormed
    hready.pages hsize hready.root hmem hready.frame hready.notOwn hready.drawable
    (sideBySide_of_drawn hrenderer ((hready.drawn bytes contents).of_alone
      fun halone : True ∧ ∀ f ∈ screenFrames info, f ∉ own => halone.2))
    hready.tables.recorded hruns hnull
  obtain ⟨o, hsystem, -, hinv⟩ := hrunning (fun _ _ => 0) fun _ _ => 0
  refine ⟨hsystem, ⟨hinv.memory.loaded hready.pages hmem hready.frame hready.notOwn, ?_⟩,
    fun halone => hinv.shown ⟨trivial, halone⟩, fun bytes contents => ?_⟩
  · exact fun f hf hown hscreen i hi => (hready.back _ hinv.memory).load8_boot hf hown hscreen hi
  · obtain ⟨o', -, hobjects, hinv'⟩ := hrunning bytes contents
    exact ⟨o', hobjects, hinv'.objects⟩

/-- A machine with 16 MiB of memory, a page of framebuffer, and one function on the bus. -/
theorem bootable_oneFunction : Bootable oneFunction (sixteenMegabytes 0x100000) lowScreen 0x201000
    0x200000 {0x203000} lowPaths (fun k => 3072 ≤ k) 0 := by
  have hbase : (0x100000 : BitVec 64) = 0 ∨ (0x100000 : BitVec 64) = 0x100000 := Or.inr rfl
  have hstart : heapAddr.toNat = 2 ^ 44 := rfl
  refine ⟨sixteenMegabytes_wellFormed hbase, totalMem_sixteenMegabytes_le hbase,
    frameBufInReach_sixteenMegabytes hbase, by decide, by decide, fun x hx => ?_,
    screenApart_sixteenMegabytes, notBitmapFrame_sixteenMegabytes,
    bitmapBelow_sixteenMegabytes hbase, usedAtBoot_lastFrame,
    fun _ _ h => loopFrames_sixteenMegabytes h, fun _ => (pathsIn_sixteenMegabytes hbase).1,
    fun _ => (pathsIn_sixteenMegabytes hbase).2, fun j hj => pathsIn_heapStart ?_,
    room_sixteenMegabytes oneFunction hbase (by decide), drawsOn_lowScreen, fontAt_lowScreen,
    by decide, tablesIn_oneFunction, fun e he => eventOk_oneFunction (by decide) he,
    storesInside_lowScreen⟩
  · have hoffset : (x - 0xc00000).toNat < (0x1000 : BitVec 64).toNat := hx
    left
    bv_omega
  · unfold heapPage
    rw [BitVec.toNat_add, BitVec.toNat_ofNat, hstart]
    omega

/-- The kernel is started on it, has found the function, and takes the interrupt of the timer. -/
theorem initKernel_ready_oneFunction : ∃ (k : KernelHeap PageFrameAllocator) (idtr : Idtr)
    (b : Board) (u : Running),
      initKernel oneFunction (sixteenMegabytes 0x100000) clearBoard.handlers lowScreen 0x201000
        0x200000 = some ⟨k, idtr, ⟨0, 16⟩⟩ ∧
      Steps (DeliveryStep b false) { keyInHand with
          pics := picEndMaster keyInHand.pics
          cpu := .kernel
          keyboard := { keyInHand.keyboard with
            globalRenderer := scanned oneFunction (sixteenMegabytes 0x100000) lowScreen 0x200000 } }
        [.cpu] u.system ∧
      load32 u.memory.machine.mem (pixelPtr lowScreen 0 3) = 0xffffffff := by
  obtain ⟨kernel, k, idtr, hcall, hnull, -, hruns⟩ :=
    initKernel_ready bootable_oneFunction 0 clearBoard.handlers
  have hcursor : (scanned oneFunction (sixteenMegabytes 0x100000) lowScreen
      0x200000).cursorPosition = ⟨0, 16⟩ := by decide +kernel
  have hlit : (scanned oneFunction (sixteenMegabytes 0x100000) lowScreen 0x200000).pixels
      (3 + 0 * lowScreen.targetFramebuffer.pixelsPerScanline.toNat) = 0xffffffff := by
    decide +kernel
  have htimer : (picEndMaster keyInHand.pics).master.Next 0 :=
    ⟨by decide, fun m _ => Fin.zero_le m⟩
  obtain ⟨hsystem, -, hshown, -⟩ := hruns false { keyInHand with
      pics := picEndMaster keyInHand.pics
      cpu := .kernel
      keyboard := { keyInHand.keyboard with
        globalRenderer := scanned oneFunction (sixteenMegabytes 0x100000) lowScreen 0x200000 } }
    _ _ rfl (Steps.single (RunningStep.accept _ 0x20 _ rfl (Pair.Acks.direct _ 0 htimer rfl))) hnull
  have hinside : Inside lowScreen (0, 3) := ⟨by decide, by decide +kernel⟩
  refine ⟨k, idtr, _, _, ?_, hsystem, ?_⟩
  · rw [← hcursor]
    exact hcall
  · rw [← hlit]
    refine hshown (fun f hf h => ?_) 0 3 hinside
    have hlo := (screenFrames_sixteenMegabytes hf).1
    rw [Set.mem_singleton_iff.mp h] at hlo
    exact absurd hlo (by decide)

end EtaOs
