import EtaOs.KernelHeap.Drawing
import EtaOs.Pci.Scan

/-!
# The kernel scans the buses as the boot loader left them

By the time `prepare_acpi` runs, the page tables, the heap and the interrupt table have been made
in the memory in which the tables of the firmware lie, and the scan itself goes on mapping pages,
and draws.  It returns nevertheless, and does what the walk does on the memory that the boot loader
left, with the framebuffer cleared.

The bytes that the scan reads are of two kinds.  Those of the tables lie in frames that were in use
at the start, which are mapped to themselves; those of the configuration space lie beyond the reach
of the allocator, and the scan maps each page before it reads it.  Nobody writes to either kind, as
long as none of them is one of the kernel's own, and mapping a page to itself moves none of them.

The memory of objects takes no notice of all this: what is mapped lies outside the heap, and what
is drawn lies in the framebuffer.

* `ConfigPage`: a page of configuration space that may be mapped.
* `ImageByte`, `Steady`: bytes that are as the boot loader left them, and stay so.
* `ScanInv`: the invariant of the scan; `scanRel`, what the walk asks for.
* `prepareAcpi_scans`: the scan.
-/

namespace EtaOs

open BasicRenderer ByteMemory Fallible RadixTree Simulation ACPI PCI

/-! ## Bytes that stay -/

/-- The addresses of the calls of `map_mem`, the last call first. -/
def KernelHeap.maps {σ : Type} (k : KernelHeap σ) : List (Addr × BitVec 64) :=
  k.mapCalls.map fun call => (call.virtMem, call.physMem)

section Steady

variable {info : BootInfo} {own : Set (BitVec 64)} {m : Mem} {root a p x : BitVec 64}

/-- A page of configuration space: it is beyond the reach of the allocator, none of the kernel's
own, and outside the heap, which is between `bottom` and `top`, and the tables for it are at paths
in `S`. -/
structure ConfigPage (info : BootInfo) (own : Set (BitVec 64)) (S : Finset (List (BitVec 9)))
    (bottom top : Addr) (p : Addr) : Prop extends UsedAtBoot info p where
  below : p.toNat < 2 ^ 48
  notOwn : p ∉ own
  outside : p.toNat < bottom.toNat ∨ top.toNat ≤ p.toNat
  paths : PathsIn S p

/-- A byte in a frame that is as the boot loader left it. -/
def ImageByte (info : BootInfo) (own : Set (BitVec 64)) (x : Addr) : Prop :=
  ∃ f, BootImage info f ∧ f ∉ own ∧ (x - f).toNat < 4096

/-- **A byte that nobody writes to.** -/
def Steady (info : BootInfo) (own : Set (BitVec 64)) (x : Addr) : Prop :=
  ∃ f, UsedAtBoot info f ∧ f.toNat < 2 ^ 48 ∧ f ∉ own ∧ (x - f).toNat < 4096

theorem Steady.below (h : Steady info own x) : x.toNat < 2 ^ 48 := by
  obtain ⟨f, hf, hlt, -, hx⟩ := h
  obtain ⟨haligned, -⟩ := hf.frame
  bv_omega

theorem ImageByte.steady (hsize : (totalMem info.memMap).toNat ≤ 2 ^ 48)
    (h : ImageByte info own x) : Steady info own x := by
  obtain ⟨f, hf, hnot, hx⟩ := h
  refine ⟨f, hf.toUsedAtBoot, ?_, hnot, hx⟩
  have hmem := hf.inMemory
  rw [frameIndex_eq, totalFrames] at hmem
  omega

theorem ConfigPage.steady {S : Finset (List (BitVec 9))} {bottom top : Addr}
    (h : ConfigPage info own S bottom top p) (hx : x ∈ bytesOfPage p) : Steady info own x :=
  ⟨p, h.toUsedAtBoot, h.below, h.notOwn, hx⟩

/-- Its contents are those that the boot loader left. -/
theorem Steady.mem_eq {s : MemoryState} (h : Steady info own x)
    (hinv : MemoryInv info.memMap root a own (imageFrames info) m s) : s.machine.mem x = m x := by
  obtain ⟨f, hf, -, hnot, hx⟩ := h
  by_cases hreach : frameIndex f < reach info.memMap
  · exact hinv.kept f ⟨hf, hreach⟩ hf.ne hnot x hx
  · exact hinv.far f hf.frame (by omega) hf.notBitmap hnot x hx

/-- **Mapping a page to itself** leaves what is mapped to itself. -/
theorem direct_mapMem {s s' : Kernel} (hcr3 : s.cr3 = some root) (hcr3' : s'.cr3 = some root)
    (hp : IsFrame p) (hlt : p.toNat < 2 ^ 48) (hx : x.toNat < 2 ^ 48)
    (hwalk : ∀ w, walk s'.mem root w =
      if SamePage p w then some (frameOf p) else walk s.mem root w)
    (h : s.Direct x) : s'.Direct x := by
  by_cases hsame : SamePage p x
  · have hself : walk s'.mem root p = some p := by
      have hpage : SamePage p p := rfl
      rw [hwalk, if_pos hpage, hp.frameOf]
    refine direct_of_walk hcr3' hp hself ?_
    have hindex := (samePage_iff_of_lt hlt hx).mp hsame
    obtain ⟨haligned, -⟩ := hp
    bv_omega
  · rw [Machine.Direct, Machine.phys, hcr3] at h
    rw [Machine.Direct, Machine.phys, hcr3']
    dsimp only at h ⊢
    rwa [hwalk, if_neg hsame]

end Steady

/-! ## The invariant of the scan -/

/-- **The invariant of the scan**, which began with the machine of `s₀`.  The objects are as they
were and the pixels are drawn, the framebuffer and the bytes of `D` are mapped to themselves, and
frames are left for the tables. -/
structure ScanInv (info : BootInfo) (t : Target) (root a : BitVec 64) (own K : Set (BitVec 64))
    (m : Mem) (alone : Prop) (S : Finset (List (BitVec 9))) (L : ℕ → Prop) [DecidablePred L] (n : ℕ)
    (s₀ : MemoryState) (o : Objects) (D : Set Addr) (c : List Addr)
    (k : KernelHeap PageFrameAllocator) (r : BasicRenderer) : Prop where
  drawn : DrawnInv info t root a own K m alone ⟨⟨k, s₀.blocks.live⟩, s₀.frames⟩ o r
  screen : ScreenMapped info k.machine
  supply : Supply info.memMap root S L n k.machine
  start : k.heapStart = s₀.blocks.heap.heapStart
  stop : k.heapEnd = s₀.blocks.heap.heapEnd
  seen : ∀ x ∈ D, k.machine.Direct x ∧ Steady info own x
  maps : k.maps = (c.map fun p => (p, p)).reverse ++ s₀.blocks.heap.maps

section Scan

variable {info : BootInfo} {t : Target} {glyphBuffer root a : BitVec 64} {own K : Set (BitVec 64)}
  {m m₀ : Mem} {alone : Prop} {S : Finset (List (BitVec 9))} {L : ℕ → Prop} [DecidablePred L]
  {n : ℕ} {s₀ : MemoryState} {o : Objects} {D : Set Addr} {c : List Addr}
  {k k' : KernelHeap PageFrameAllocator} {r r' : BasicRenderer} {p : Addr}

/-- The scan goes on where only memory has been written. -/
theorem ScanInv.onlyWrites (h : ScanInv info t root a own K m alone S L n s₀ o D c k r)
    (hdrawn : DrawnInv info t root a own K m alone ⟨⟨k', s₀.blocks.live⟩, s₀.frames⟩ o r')
    (honly : OnlyWrites info.memMap root k k') :
    ScanInv info t root a own K m alone S L n s₀ o D c k' r' := by
  have hphys := honly.phys h.drawn.memory.cr3
  obtain ⟨_, _, hblocks⟩ := hdrawn.memory.blocks
  have htables := hblocks.mirrors.refines.shown.pages.identity.tables
  exact ⟨hdrawn, fun x hx => (hphys x).trans (h.screen x hx),
    h.supply.of_sameOn htables honly.tables honly.marked,
    (congrArg KernelHeap.heapStart honly.heap).trans h.start,
    (congrArg KernelHeap.heapEnd honly.heap).trans h.stop,
    fun x hx => ⟨(hphys x).trans (h.seen x hx).1, (h.seen x hx).2⟩,
    (congrArg KernelHeap.maps honly.heap).trans h.maps⟩

variable (hwf : WellFormedMap info.memMap) (hpages : 1 ≤ totalFrames info.memMap)
  (hsize : (totalMem info.memMap).toNat ≤ 2 ^ 48) (hroot : IsFrame root)
  (hend : info.baseAdress.toNat + info.bufferSize.toNat + 4096 ≤ 2 ^ 48)
  (hscreen : screenFrames info ⊆ own) (hdraws : DrawsOn info t)

include hwf hpages hsize hroot hend hscreen hdraws

/-- **A page of configuration space is mapped.** -/
theorem ScanInv.mapPage (h : ScanInv info t root a own K m alone S L n s₀ o D c k r)
    (hp : ConfigPage info own S s₀.blocks.heap.heapStart s₀.blocks.heap.heapEnd p) :
    Returns (HeapM.mapMem globalAllocator ⟨root⟩ p p) k fun _ k' =>
      ScanInv info t root a own K m alone S L n s₀ o (D ∪ bytesOfPage p) (c ++ [p]) k' r := by
  obtain ⟨_, _, hblocks⟩ := h.drawn.memory.blocks
  have hallowed : KeepsMemory info.memMap p p := ⟨hp.below, Or.inl rfl⟩
  have hout : p.toNat < k.heapStart.toNat ∨ k.heapEnd.toNat ≤ p.toNat := by
    rw [h.start, h.stop]
    exact hp.outside
  have hM := mapInv_paged hwf (mapInv_supply (S := S) (L := L) (n := n) hwf
    (mapInv_memory hwf hpages hsize hroot)) fun _ hI => hI.1
  have hI := And.intro hblocks.mirrors.refines.shown.pages.identity h.supply
  obtain ⟨s', hmap⟩ := hM.mapMem_total hI ⟨hallowed, hp.paths⟩
  obtain ⟨⟨hid, hsupply⟩, hwalk⟩ :=
    hM.mapMem_spec hI ⟨hallowed, hp.paths⟩ hmap fun _ _ => trivial
  let k' : KernelHeap PageFrameAllocator :=
    { k with machine := s', mapCalls := ⟨k.machine, p, p⟩ :: k.mapCalls }
  have hrun : HeapM.mapMem globalAllocator ⟨root⟩ p p k = some ((), k') := by
    rw [HeapM.mapMem, hmap]
    rfl
  obtain ⟨_, hstep, hdrawn⟩ := h.drawn.memoryUse hwf hroot hend hscreen hpages hsize
    (Set.empty_subset own) (fun _ f _ => Set.notMem_empty f) hdraws
    (MemoryUse.map _ p p k' hallowed hout hrun) fun r hr => (hsupply.tables.given r hr).2
  cases hstep
  have hdirect : ∀ x, x.toNat < 2 ^ 48 → k.machine.Direct x → s'.Direct x := fun x hx =>
    direct_mapMem h.drawn.memory.cr3 hid.cr3 hp.frame hp.below hx hwalk
  have hself : walk s'.mem root p = some p := by
    have hpage : SamePage p p := rfl
    rw [hwalk, if_pos hpage, hp.frame.frameOf]
  refine ⟨(), k', hrun, hdrawn, fun x hx => ?_, hsupply, h.start, h.stop, ?_, ?_⟩
  · exact hdirect x (screenByte_lt hend hx).2 (h.screen x hx)
  · rintro x (hx | hx)
    · obtain ⟨hdir, hsteady⟩ := h.seen x hx
      exact ⟨hdirect x hsteady.below hdir, hsteady⟩
    · exact ⟨direct_of_walk hid.cr3 hp.frame hself hx, hp.steady hx⟩
  · rw [List.map_append, List.reverse_append]
    exact congrArg ((p, p) :: ·) h.maps

/-- **The walk can be made**, as the glyphs and what the boot loader left are there. -/
theorem scanRel (hglyph : ∀ s, MemoryInv info.memMap root a own K m s → ∀ offset,
      InGlyphs t offset →
        s.machine.load8 (glyphBuffer + BitVec.ofInt 64 offset) = some (t.glyphBuffer offset))
    (hback : ∀ s, MemoryInv info.memMap root a own K m s →
      MemoryInv info.memMap root a own (imageFrames info) m₀ s) :
    ScanRel globalAllocator ⟨root⟩ t glyphBuffer m₀
      (ConfigPage info own S s₀.blocks.heap.heapStart s₀.blocks.heap.heapEnd)
      (ScanInv info t root a own K m alone S L n s₀ o) where
  renders := by
    intro D c
    have hrenders : ∀ {k r}, ScanInv info t root a own K m alone S L n s₀ o D c k r →
        RendersTo t glyphBuffer fun k' r' =>
          DrawnInv info t root a own K m alone ⟨⟨k', s₀.blocks.live⟩, s₀.frames⟩ o r' ∧
            OnlyWrites info.memMap root k k' := fun h =>
      drawnInv_rendersTo hwf hroot hend hscreen hdraws h.screen h.drawn.memory.cr3 hglyph
    refine ⟨fun h heq => ?_, fun c hin k r h => ?_, fun h hin => ?_⟩
    · obtain ⟨hdrawn, honly⟩ := (hrenders h).pixels ⟨h.drawn, OnlyWrites.refl _⟩ heq
      exact h.onlyWrites hdrawn honly
    · refine ((hrenders h).store c hin k r ⟨h.drawn, OnlyWrites.refl _⟩).mono ?_
      rintro _ k' ⟨hdrawn, honly⟩
      exact h.onlyWrites hdrawn honly
    · exact hglyph _ h.drawn.memory _ hin
  mono := fun hsub h => { h with seen := fun x hx => h.seen x (hsub hx) }
  bytes := by
    intro D c k r x h hx
    obtain ⟨hdirect, hsteady⟩ := h.seen x hx
    rw [Machine.load8, hdirect, Option.map_some]
    exact congrArg some (hsteady.mem_eq (hback _ h.drawn.memory))
  map := fun hp h => h.mapPage hwf hpages hsize hroot hend hscreen hdraws hp

/-- **`prepare_acpi` from the invariant of drawing on**, when what the boot loader left in `m₀` is
there. -/
theorem DrawnInv.prepareAcpi {s : MemoryState} {rsdp : Addr}
    (h : DrawnInv info t root a own K m alone s o r)
    (hglyph : ∀ s, MemoryInv info.memMap root a own K m s → ∀ offset, InGlyphs t offset →
      s.machine.load8 (glyphBuffer + BitVec.ofInt 64 offset) = some (t.glyphBuffer offset))
    (hback : ∀ s, MemoryInv info.memMap root a own K m s →
      MemoryInv info.memMap root a own (imageFrames info) m₀ s)
    (hmapped : ScreenMapped info s.machine) (hsupply : Supply info.memMap root S L n s.machine)
    (hcharsize : t.psf1Header.charsize ≠ 0) (htables : TablesIn {x | ImageByte info own x} m₀ rsdp)
    (hok : ∀ e ∈ PCI.prepareAcpi m₀ rsdp, EventOk (ConfigPage info own S s.blocks.heap.heapStart
      s.blocks.heap.heapEnd) e)
    (hinside : StoresInside t (render t (reportOps (PCI.prepareAcpi m₀ rsdp)) r)) :
    Returns (HeapM.prepareAcpi globalAllocator ⟨root⟩ t glyphBuffer rsdp r.cursorPosition)
      s.blocks.heap fun p k =>
        p = (render t (reportOps (PCI.prepareAcpi m₀ rsdp)) r).cursorPosition ∧
          ScanInv info t root a own K m alone S L n s o {x | ImageByte info own x}
            (mappedPages (PCI.prepareAcpi m₀ rsdp)) k
            (render t (reportOps (PCI.prepareAcpi m₀ rsdp)) r) := by
  have himage := hback s h.memory
  have hseen : ∀ x ∈ {x | ImageByte info own x}, s.machine.Direct x ∧ Steady info own x := by
    intro x hx
    have hsteady := ImageByte.steady hsize hx
    obtain ⟨f, hf, -, hin⟩ := hx
    exact ⟨himage.direct_memory hf.frame hf.inMemory hin, hsteady⟩
  exact scans_prepareAcpi
    (scanRel hwf hpages hsize hroot hend hscreen hdraws hglyph hback) hcharsize htables hok [] _ r
    ⟨h, hmapped, hsupply, rfl, rfl, hseen, rfl⟩ hinside

end Scan

/-! ## The result -/

section Result

variable {m : Mem} {info : BootInfo} {a pageCount glyphBuffer : BitVec 64} {own : Set (BitVec 64)}
  {k₀ k₁ : KernelHeap PageFrameAllocator} {ops : List MemoryOp} {s : MemoryState} {t : Target}
  {S : Finset (List (BitVec 9))} {L : ℕ → Prop} [DecidablePred L] {n : ℕ} {rsdp : Addr}
  {r : BasicRenderer}

/-- **The scan does what the walk does on the memory that the boot loader left**, with the
framebuffer cleared.  On a machine of at most 16 TiB, after `prepare_mem`, the clearing of the
framebuffer, `init_heap` and any run of the uses of memory, as long as frames are left for the page
tables, `prepare_acpi` returns, if every class that it finds has a name and every line fits on the
screen.  It maps the pages of the walk to themselves, and prints what the walk reports: if the bytes
of the framebuffer are the pixels before, they are so behind it.  No request returns `NULL`, the
objects are as they were, and so is what the boot loader left in the other frames. -/
theorem prepareAcpi_scans (hboot : HeapBoot m info a pageCount k₀ k₁)
    (hsize : (totalMem info.memMap).toNat ≤ 2 ^ 44) (hlow : 4096 ≤ info.baseAdress.toNat)
    (hown : ∀ f ∈ own, UsedAtBoot info f)
    (hrun : Steps (MemoryUse info.memMap own ⟨pml4 m info⟩) ⟨⟨k₁, []⟩, []⟩ ops s)
    (hsupply : Supply info.memMap (pml4 m info) S L n s.machine)
    (hmapped : ScreenMapped info s.machine) (hdraws : DrawsOn info t)
    (hfont : FontAt info (own ∪ screenFrames info) m t glyphBuffer)
    (hcharsize : t.psf1Header.charsize ≠ 0)
    (htables : TablesIn {x | ImageByte info (own ∪ screenFrames info) x} (clearedMemory info m)
      rsdp)
    (hok : ∀ e ∈ prepareAcpi (clearedMemory info m) rsdp,
      EventOk (ConfigPage info (own ∪ screenFrames info) S s.blocks.heap.heapStart
        s.blocks.heap.heapEnd) e)
    (hinside : StoresInside t
      (render t (reportOps (prepareAcpi (clearedMemory info m) rsdp)) r)) :
    ∃ k, HeapM.prepareAcpi globalAllocator ⟨pml4 m info⟩ t glyphBuffer rsdp r.cursorPosition
          s.blocks.heap =
        some ((render t (reportOps (prepareAcpi (clearedMemory info m) rsdp)) r).cursorPosition,
          k) ∧
      k.maps = ((mappedPages (prepareAcpi (clearedMemory info m) rsdp)).map
        fun p => (p, p)).reverse ++ s.blocks.heap.maps ∧
      (ShowsPixels t s.machine.mem r → ShowsPixels t k.machine.mem
        (render t (reportOps (prepareAcpi (clearedMemory info m) rsdp)) r)) ∧
      (∀ q ∈ k.machine.requests, q.frame ≠ 0) ∧
      (∀ (bytes : Block → ℕ → BitVec 8) (contents : BitVec 64 → ℕ → BitVec 8), ∃ o,
        Steps Objects.Step ⟨⟨[], bytes⟩, [], contents⟩ ops o ∧ HoldsObjects s o ∧
          HoldsObjects ⟨⟨k, s.blocks.live⟩, s.frames⟩ o) ∧
      ∀ f, BootImage info f → f ∉ own → f ∉ screenFrames info → ∀ i < 4096,
        k.machine.load8 (frameByte f i) = some (m (frameByte f i)) := by
  have hnull : ∀ q ∈ s.machine.requests, q.frame ≠ 0 :=
    fun q hq => (hsupply.tables.given q hq).2.1
  have hown' : ∀ f ∈ own ∪ screenFrames info, UsedAtBoot info f := by
    rintro f (hf | hf)
    · exact hown f hf
    · exact usedAtBoot_screen hboot.frameBufBelow hlow hboot.screen hf
  have hscreen : screenFrames info ⊆ own ∪ screenFrames info := Set.subset_union_right
  have hrun' : Steps (MemoryUse info.memMap (own ∪ screenFrames info) ⟨pml4 m info⟩)
      ⟨⟨k₁, []⟩, []⟩ ops s := hrun.mono fun _ _ _ huse => huse.mono Set.subset_union_left
  obtain ⟨⟨hpages, hroot⟩, hinv⟩ := hboot.imageInv_run hsize hown' hrun' hnull
  -- the scan, whatever the objects are
  have hscan := fun o (ho : HoldsObjects s o) =>
    DrawnInv.prepareAcpi hboot.wellFormed hpages hboot.size_le hroot hboot.frameBufBelow hscreen
      hdraws ⟨hinv, ho, fun hshown : ShowsPixels t s.machine.mem r => hshown⟩
      (fun _ hs _ => hfont.load8 hscreen hs) (fun _ hs => hs) hmapped hsupply hcharsize htables hok
      hinside
  obtain ⟨-, o, -, -, ho⟩ :=
    hboot.memoryInv_run hown hrun hnull (fun _ _ => 0) fun _ _ => 0
  obtain ⟨_, k, hcall, rfl, hk⟩ := hscan o ho
  refine ⟨k, hcall, hk.maps, hk.drawn.shown, fun q hq => (hk.supply.tables.given q hq).2.1,
    fun bytes contents => ?_,
    fun f hf hnot hnot' i hi => hk.drawn.memory.load8_boot hf hnot hnot' hi⟩
  obtain ⟨-, o', hsteps, -, ho'⟩ := hboot.memoryInv_run hown hrun hnull bytes contents
  exact ⟨o', hsteps, ho', ((hscan o' ho').of_eq hcall).2.drawn.objects⟩

end Result

/-! ## A machine with 16 megabytes -/

/-- The firmware has left its tables in the first frame of the kernel: the root pointer, the XSDT
with one entry, and the MCFG table with a record of one bus, on which there is one function.  The
font is in the second frame. -/
def oneFunction : Mem := fun x =>
  if 0x201000 ≤ x ∧ x < 0x202000 then if x &&& 15 < 4 then 0x18 else 0
  else ([(0x200019, 0x01), (0x20001a, 0x20), (0x200104, 44), (0x200125, 0x02), (0x200126, 0x20),
    (0x200200, 0x4d), (0x200201, 0x43), (0x200202, 0x46), (0x200203, 0x47), (0x200204, 60),
    (0x20022e, 0x10), (0x200231, 0x10), (0x200237, 0x01), (0x100000100002, 0x34)] :
    List (Addr × BitVec 8)).lookup x |>.getD 0

/-- What `prepare_acpi` reads. -/
def oneFunctionCleared : Mem := clearedMemory (sixteenMegabytes 0x100000) oneFunction

/-- A screen of four lines of pixels, which is enough for the upper rows of the glyphs. -/
def lowScreen : Target where
  targetFramebuffer := ⟨0xc00000, 0x1000, 256, 4, 256⟩
  psf1Header := ⟨0x36, 0x04, 0, 16⟩
  glyphBuffer offset := oneFunction (0x201000 + BitVec.ofInt 64 offset)
  color := 0xffffffff
  clearColor := 0


/-- The last frame of the kernel holds its variables. -/
theorem usedAtBoot_lastFrame : ∀ f ∈ ({0x203000} : Set (BitVec 64)),
    UsedAtBoot (sixteenMegabytes 0x100000) f := by
  rintro f rfl
  exact usedAtBoot_kernel (by decide) (by decide) (by decide)

/-- The frames of the tables and of the font are none of the kernel's own. -/
theorem notMem_own_oneFunction {f : BitVec 64} (hf : f.toNat < 0x203000) :
    f ∉ ({0x203000} : Set (BitVec 64)) ∪ screenFrames (sixteenMegabytes 0x100000) := by
  rintro (h | h)
  · rw [Set.mem_singleton_iff.mp h] at hf
    exact absurd hf (by decide)
  · have hlo := (screenFrames_sixteenMegabytes h).1
    omega

/-- Bytes of the first frame of the kernel. -/
theorem imageByte_kernel {x : Addr} {n i : ℕ} (hx : 0x200000 ≤ x.toNat)
    (hn : x.toNat + n ≤ 0x201000) (hi : i < n) : x + BitVec.ofNat 64 i ∈ {x | ImageByte
      (sixteenMegabytes 0x100000) ({0x203000} ∪ screenFrames (sixteenMegabytes 0x100000)) x} := by
  refine ⟨0x200000, bootImage_kernel (by decide) (by decide) (by decide),
    notMem_own_oneFunction (by decide), ?_⟩
  have hframe : (0x200000 : BitVec 64).toNat = 0x200000 := rfl
  bv_omega

theorem tablesIn_oneFunction : TablesIn {x | ImageByte (sixteenMegabytes 0x100000)
    ({0x203000} ∪ screenFrames (sixteenMegabytes 0x100000)) x} oneFunctionCleared 0x200000 := by
  have hxsdt : RSDP2.xsdtAdrr oneFunctionCleared 0x200000 = 0x200100 := by decide +kernel
  have hentries : (sdtEntries oneFunctionCleared 0x200100).toInt.toNat = 1 := by decide +kernel
  have hentry : sdtEntry oneFunctionCleared 0x200100 0#32 = 0x200200 := by decide +kernel
  have hmcfg : findTable oneFunctionCleared 0x200100 mcfgSignature = 0x200200 := by decide +kernel
  have hrecords : (mcfgEntries oneFunctionCleared 0x200200).toInt.toNat = 1 := by decide +kernel
  refine ⟨fun i => imageByte_kernel (by decide) (by decide), ?_, ?_, ?_, ?_, ?_⟩
  · rw [hxsdt]
    exact fun i => imageByte_kernel (by decide) (by decide)
  · rw [hxsdt, hentries]
    rintro j hj i
    obtain rfl := Nat.lt_one_iff.mp hj
    exact imageByte_kernel (by decide) (by decide)
  · rw [hxsdt, hentries]
    rintro j hj i
    obtain rfl := Nat.lt_one_iff.mp hj
    rw [hentry]
    exact imageByte_kernel (by decide) (by decide)
  · rw [hxsdt, hmcfg]
    exact fun i => imageByte_kernel (by decide) (by decide)
  · rw [hxsdt, hmcfg, hrecords]
    rintro j hj i
    obtain rfl := Nat.lt_one_iff.mp hj
    exact imageByte_kernel (by decide) (by decide)

/-- The pages of the bus lie behind the heap, within the range of one page table. -/
theorem eventOk_oneFunction {bottom top : Addr} (htop : top.toNat ≤ 0x100000100000) {e : PciEvent}
    (he : e ∈ prepareAcpi oneFunctionCleared 0x200000) :
    EventOk (ConfigPage (sixteenMegabytes 0x100000)
      ({0x203000} ∪ screenFrames (sixteenMegabytes 0x100000)) lowPaths bottom top) e := by
  have hbase : (0x100000 : BitVec 64) = 0 ∨ (0x100000 : BitVec 64) = 0x100000 := Or.inr rfl
  have hall : ∀ e ∈ prepareAcpi oneFunctionCleared 0x200000, EventOk (fun p =>
      p.toNat % 4096 = 0 ∧ 0x100000100000 ≤ p.toNat ∧ p.toNat < 0x100000200000) e := by
    decide +kernel
  cases e with
  | report p header => exact hall _ he
  | map p =>
      obtain ⟨haligned, hlo, hhi⟩ := hall _ he
      have hindex := frameIndex_eq p
      have hreach := reach_sixteenMegabytes hbase
      refine ⟨⟨⟨haligned, by omega⟩, ?_, fun hbitmap => ?_, Or.inr (by omega)⟩, by omega, ?_,
        Or.inr (htop.trans hlo), pathsIn_heapStart (by omega)⟩
      · rintro rfl
        exact absurd hlo (by decide)
      · have hle := bitmapFrame_sixteenMegabytes hbase hbitmap
        have hbound : (0x100000 : BitVec 64).toNat = 0x100000 := rfl
        omega
      · rintro (h | h)
        · rw [Set.mem_singleton_iff.mp h] at hlo
          exact absurd hlo (by decide)
        · have hlt := (screenFrames_sixteenMegabytes h).2
          omega

theorem drawsOn_lowScreen : DrawsOn (sixteenMegabytes 0x100000) lowScreen := by
  refine ⟨rfl, fun y x hin => ?_⟩
  obtain ⟨hy, hx⟩ := hin
  have hheight : lowScreen.targetFramebuffer.height.toNat = 4 := rfl
  have hwidth : lowScreen.targetFramebuffer.width.toNat = 256 := rfl
  have hpps : lowScreen.targetFramebuffer.pixelsPerScanline.toNat = 256 := rfl
  have hbytes : (sixteenMegabytes 0x100000).bufferSize.toNat = 0x1000 := rfl
  rw [hheight] at hy
  rw [hwidth] at hx
  rw [hpps, hbytes]
  dsimp only at hy hx
  omega

theorem fontAt_lowScreen : FontAt (sixteenMegabytes 0x100000)
    ({0x203000} ∪ screenFrames (sixteenMegabytes 0x100000)) oneFunction lowScreen 0x201000 := by
  rintro offset ⟨hlo, hhi⟩
  lift offset to ℕ using hlo
  have hsize : lowScreen.psf1Header.glyphBufferSize.toNat = 4096 := by decide
  rw [hsize] at hhi
  refine ⟨0x201000, bootImage_kernel (by decide) (by decide) (by decide),
    notMem_own_oneFunction (by decide), ?_, rfl⟩
  rw [BitVec.ofInt_natCast]
  bv_omega

/-- The line of the function fits on the screen. -/
theorem storesInside_lowScreen : StoresInside lowScreen (render lowScreen
    (reportOps (prepareAcpi oneFunctionCleared 0x200000)) (init fun _ => 0)) := by
  have hall : (render lowScreen (reportOps (prepareAcpi oneFunctionCleared 0x200000))
      (init fun _ => 0)).stores.all (fun q => q.1 < 4 && q.2 < 256) = true := by decide +kernel
  intro q hq
  have hstore := List.all_eq_true.mp hall q hq
  simp only [Bool.and_eq_true, decide_eq_true_eq] at hstore
  exact hstore

/-- Behind `init_heap` a frame is requested, and the framebuffer is still clear. -/
theorem oneRequest_oneFunction : ∃ (k₀ k₁ k₂ : KernelHeap PageFrameAllocator)
    (f : BitVec 64), HeapBoot oneFunction (sixteenMegabytes 0x100000) 0x100000000000 1 k₀ k₁ ∧
      Steps (MemoryUse (sixteenMegabytes 0x100000).memMap {0x203000}
        ⟨pml4 oneFunction (sixteenMegabytes 0x100000)⟩) ⟨⟨k₁, []⟩, []⟩ [.request f]
        ⟨⟨k₂, []⟩, [f]⟩ ∧
      Supply (sixteenMegabytes 0x100000).memMap (pml4 oneFunction (sixteenMegabytes 0x100000))
        lowPaths (fun k => 3072 ≤ k) 0 k₂.machine ∧
      k₂.heapStart = 0x100000000000 ∧ k₂.heapEnd = 0x100000001000 := by
  obtain ⟨k₀, k₁, hboot, hsupply⟩ := heapBoot_sixteenMegabytes oneFunction
  have hwf := hboot.wellFormed
  have hOk : AllGranted (sixteenMegabytes 0x100000).memMap ⟨k₁, []⟩ :=
    fun r hr => (hsupply.tables.given r hr).2
  obtain ⟨⟨hpages, hroot⟩, hid, hheld, -⟩ := hboot.start fun r hr => (hOk r hr).1
  have hinv := hboot.blockInv (B := ∅) hpages hroot hid hheld (fun f hf => absurd hf (by simp)) hOk
  have hrequest := requestPage_of_identityInv hwf hroot
    hinv.mirrors.refines.shown.pages.identity
  exact ⟨k₀, k₁, _, _, hboot, Steps.single (MemoryUse.request _ _ _ hrequest),
    hsupply.takeFrame hwf hroot, hinv.on.start, hinv.on.stop⟩

/-- The function is found and printed: the fourth pixel of the first line is lit. -/
theorem prepareAcpi_scans_sixteenMegabytes : ∃ (k₀ k₁ k₂ k : KernelHeap PageFrameAllocator),
    HeapBoot oneFunction (sixteenMegabytes 0x100000) 0x100000000000 1 k₀ k₁ ∧
      HeapM.prepareAcpi globalAllocator ⟨pml4 oneFunction (sixteenMegabytes 0x100000)⟩ lowScreen
        0x201000 0x200000 ⟨0, 0⟩ k₂ = some (⟨0, 16⟩, k) ∧
      load32 k.machine.mem (pixelPtr lowScreen 0 3) = 0xffffffff := by
  have hbase : (0x100000 : BitVec 64) = 0 ∨ (0x100000 : BitVec 64) = 0x100000 := Or.inr rfl
  have hsize := totalMem_sixteenMegabytes_le hbase
  have hlow : 4096 ≤ (sixteenMegabytes 0x100000).baseAdress.toNat := by decide
  obtain ⟨k₀, k₁, k₂, f, hboot, hrun, hsupply, hstart, hstop⟩ := oneRequest_oneFunction
  have hnull : ∀ r ∈ k₂.machine.requests, r.frame ≠ 0 :=
    fun r hr => (hsupply.tables.given r hr).2.1
  obtain ⟨-, hinv⟩ := hboot.imageInv_run hsize usedAtBoot_lastFrame hrun hnull
  -- the framebuffer is still clear
  have hclear : ShowsPixels lowScreen k₂.machine.mem (init fun _ => 0) := by
    refine showsPixels_zero drawsOn_lowScreen (fun x hx => ?_) fun _ _ _ => rfl
    have hlt := screenByte_lt hboot.frameBufBelow hx
    have hframe : frameOf x ∈ screenFrames (sixteenMegabytes 0x100000) := ⟨x, hx, rfl⟩
    have hbounds := screenFrames_sixteenMegabytes hframe
    have hsteady : Steady (sixteenMegabytes 0x100000) {0x203000} x := by
      refine ⟨frameOf x, usedAtBoot_screen hboot.frameBufBelow hlow hboot.screen hframe, by omega,
        fun h => ?_, (frameOf_of_lt hlt.2).2⟩
      rw [Set.mem_singleton_iff.mp h] at hbounds
      exact absurd hbounds.1 (by decide)
    exact (hsteady.mem_eq hinv).trans (if_pos hx)
  obtain ⟨k, hcall, -, hshown, -⟩ := prepareAcpi_scans (r := init fun _ => 0) hboot hsize hlow
    usedAtBoot_lastFrame hrun hsupply hinv.screenMapped_sixteenMegabytes drawsOn_lowScreen
    fontAt_lowScreen (by decide) tablesIn_oneFunction (fun e he => by
      show EventOk (ConfigPage _ _ _ k₂.heapStart k₂.heapEnd) e
      rw [hstart, hstop]
      exact eventOk_oneFunction (by decide) he) storesInside_lowScreen
  have hdrawn : ShowsPixels lowScreen k.machine.mem (render lowScreen
      (reportOps (prepareAcpi oneFunctionCleared 0x200000)) (init fun _ => 0)) := hshown hclear
  have hcursor : (render lowScreen (reportOps (prepareAcpi oneFunctionCleared 0x200000))
      (init fun _ => 0)).cursorPosition = ⟨0, 16⟩ := by decide +kernel
  have hlit : (render lowScreen (reportOps (prepareAcpi oneFunctionCleared 0x200000))
      (init fun _ => 0)).pixels (3 + 0 * lowScreen.targetFramebuffer.pixelsPerScanline.toNat) =
        0xffffffff := by decide +kernel
  have hinside : Inside lowScreen (0, 3) := ⟨by decide, by decide +kernel⟩
  refine ⟨k₀, k₁, k₂, k, hboot, ?_, ?_⟩
  · rw [← hcursor]
    exact hcall
  · rw [← hlit]
    exact hdrawn 0 3 hinside

end EtaOs
