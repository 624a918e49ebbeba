import EtaOs.Interrupts.KeyHandling
import EtaOs.Interrupts.Loaded
import EtaOs.KernelHeap.Drawing

/-!
# The kernel runs, and is interrupted

The processor reads the interrupt table when it takes an interrupt, through the page tables of that
moment, and between two interrupts the kernel takes frames, maps pages, and writes to blocks and
frames.  The handler of the keyboard writes to memory as well, as it draws, and all of them have
variables.

As nothing of this touches the table, and what is drawn stays in the framebuffer, the interrupts
and the memory are two systems side by side: the one has the table that was loaded once and for
all, and the other is the memory of objects, which takes no notice of what is drawn.  And if the
kernel itself leaves the framebuffer alone, what is to be seen on it is what the one system has
drawn.

A key that is drawn below the framebuffer is not a step here, nor is one while the framebuffer is
mapped to something else: from there on there is nothing to be said about the machine.

* `loadEntry`, `enterVia`: where a vector leads, read through the page tables.
* `Running`, `RunningStep`: the devices, the processor and the memory.
* `SideBySide`, `RunningStep.answered`: every step is a step of one of the two systems.
* `running_refines`: and so is every run.
-/

namespace EtaOs

open BasicRenderer ByteMemory Fallible PIC Pic8259 RadixTree Simulation

/-! ## Statement -/

/-- What the processor makes of an entry. -/
def gateOf (h : Handlers) (e : IDTDescEntry) (v : BitVec 8) : Cpu :=
  if e.typeAttr.getLsbD 7 = true ∧ e.ist = 0 then
    if e.getOffset = h.keyboardIntHandler then .keyboardInb
    else if e.getOffset = h.pitIntHandler then .pitTick
    else .lost v
  else .lost v

/-- The entry in the 16 bytes at a pointer, when they are mapped. -/
def loadEntry (s : Kernel) (a : Addr) : Option IDTDescEntry :=
  if (List.range 16).all fun i => (s.phys (a + BitVec.ofNat 64 i)).isSome then
    some (IDTDescEntry.load (fun x => (s.load8 x).getD 0) a)
  else none

/-- Where the processor goes when it takes an interrupt.  Behind an entry that is not mapped it is
lost. -/
def enterVia (h : Handlers) (idtr : Idtr) (s : Kernel) (v : BitVec 8) : Cpu :=
  match loadEntry s (entryOf idtr v) with
  | some e => gateOf h e v
  | none => .lost v

/-- The devices with the processor, and the memory. -/
structure Running where
  system : System
  memory : MemoryState

/-- The processor is not in a handler. -/
def System.InKernel (s : System) : Prop := (∃ rest, s.cpu = .boot rest) ∨ s.cpu = .kernel

/-- **One step.**  An interrupt is taken through the table in memory, and `handle_keyboard` draws in
memory; the other steps of the devices and of the processor are those of the system without memory.
The kernel uses its memory when it is not interrupted, before `sti` and behind it, and there are
stores to its own frames at any time, as the handlers have variables and a stack. -/
inductive RunningStep (b : Board) (full : Bool) (info : BootInfo) (own : Set (BitVec 64))
    (glyphBuffer : Addr) (idtr : Idtr) (ptm : PageTableManager) :
    Running → Event ⊕ MemoryOp → Running → Prop
  | accept (w : Running) (v : BitVec 8) (p : Pic8259.Pair) (hcpu : w.system.cpu = .kernel)
      (hacks : w.system.pics.Acks v p) :
      RunningStep b full info own glyphBuffer idtr ptm w (.inl .cpu)
        ⟨{ w.system with cpu := enterVia b.handlers idtr w.memory.machine v, pics := p }, w.memory⟩
  | draw (w : Running) (c : BitVec 8) (k : KernelHeap PageFrameAllocator)
      (hcpu : w.system.cpu = .keyboardHandle c)
      (hinside : KeyInside b.next b.target w.system.keyboard c)
      (hmapped : ScreenMapped info w.memory.machine)
      (hdraw : HeapM.handleKeyboard b.next b.target glyphBuffer c w.system.keyboard
        w.memory.blocks.heap = some ((), k)) :
      RunningStep b full info own glyphBuffer idtr ptm w (.inl .cpu)
        ⟨{ w.system with
            cpu := .keyboardEnd
            keyboard := handleKeyboard b.next b.target c w.system.keyboard
            handled := w.system.handled ++ [c] },
          ⟨⟨k, w.memory.blocks.live⟩, w.memory.frames⟩⟩
  | other (w : Running) (e : Event) (s : System) (hstep : DeliveryStep b full w.system e s)
      (hother : e = .cpu → w.system.cpu ≠ .kernel ∧ ∀ c, w.system.cpu ≠ .keyboardHandle c) :
      RunningStep b full info own glyphBuffer idtr ptm w (.inl e) ⟨s, w.memory⟩
  | memory (w : Running) (op : MemoryOp) (u : MemoryState)
      (hkernel : w.system.InKernel ∨ ∃ p v, op = .own p v)
      (huse : MemoryUse info.memMap own ptm w.memory op u) :
      RunningStep b full info own glyphBuffer idtr ptm w (.inr op) ⟨w.system, u⟩

/-! ## An interrupt that is taken -/

section Taken

variable {memMap : List EfiMemoryDescriptor} {root a : BitVec 64} {own K : Set (BitVec 64)}
  {h : Handlers} {k : Kernel} {s : MemoryState}

/-- **The table that is read is the one that was loaded.** -/
theorem MemoryInv.enterVia_eq {b : Board} (hinv : MemoryInv memMap root a own K
      (EtaOs.prepareInterrupts b.handlers b.kernel).2.mem s)
    (hpages : 1 ≤ totalFrames memMap) (hK : (requestPage b.kernel).1 ∈ K)
    (hne : (requestPage b.kernel).1 ≠ 0) (hnot : (requestPage b.kernel).1 ∉ own) (v : BitVec 8) :
    enterVia b.handlers (EtaOs.prepareInterrupts b.handlers b.kernel).1 s.machine v =
      enter b v := by
  obtain ⟨_, _, hblocks⟩ := hinv.blocks
  have hdirect : ∀ x, (x - (requestPage b.kernel).1).toNat < 4096 → s.machine.Direct x :=
    fun x hx => hblocks.direct hpages (Or.inr hK) hne hx
  have hrange := entryOf_range (EtaOs.prepareInterrupts b.handlers b.kernel).1 v
  have hmapped : (List.range 16).all (fun i => (s.machine.phys (entryOf
      (EtaOs.prepareInterrupts b.handlers b.kernel).1 v + BitVec.ofNat 64 i)).isSome) = true := by
    refine List.all_eq_true.mpr fun i hi => ?_
    have hi := List.mem_range.mp hi
    have hin : (entryOf (EtaOs.prepareInterrupts b.handlers b.kernel).1 v + BitVec.ofNat 64 i -
        (EtaOs.prepareInterrupts b.handlers b.kernel).1.offset).toNat < 4096 := by bv_omega
    rw [hdirect _ hin]
    rfl
  have hsame : SameOn (requestPage b.kernel).1 4096
      (EtaOs.prepareInterrupts b.handlers b.kernel).2.mem
      fun x => (s.machine.load8 x).getD 0 := by
    intro x hx
    dsimp only
    rw [Machine.load8, hdirect x hx, Option.map_some, Option.getD_some]
    exact hinv.kept _ hK hne hnot x hx
  have hread : table (EtaOs.prepareInterrupts b.handlers b.kernel).1
      (fun x => (s.machine.load8 x).getD 0) = b.idt := table_congr_frame hsame
  have hentry : loadEntry s.machine (entryOf (EtaOs.prepareInterrupts b.handlers b.kernel).1 v) =
      some (b.idt v) := by
    rw [loadEntry, if_pos hmapped, ← hread]
    rfl
  rw [enterVia, hentry]
  rfl

end Taken

/-! ## The two systems -/

/-- Only `handle_keyboard` changes what the keyboard has drawn. -/
theorem Step.keyboard_eq {b : Board} {s s' : System} {e : Event} (h : Step b s e s')
    (hother : e = .cpu → ∀ c, s.cpu ≠ .keyboardHandle c) : s'.keyboard = s.keyboard := by
  cases h with
  | keyboardHandle c hcpu => exact absurd hcpu (hother rfl c)
  | _ => rfl

/-- Behind the boot ports nothing is reset. -/
theorem fullAtReset_of_ne {full : Bool} {s : System} (hcpu : ∀ rest, s.cpu ≠ .boot rest) :
    FullAtReset full s .cpu := fun _ _ h => absurd h (hcpu _)

/-- What the renderer asks of the machine: the framebuffer has room for its pixels, and the glyphs
are loaded as the font has them. -/
structure Drawable (info : BootInfo) (t : Target) (glyphBuffer root a : BitVec 64)
    (own K : Set (BitVec 64)) (m : Mem) : Prop where
  below : info.baseAdress.toNat + info.bufferSize.toNat + 4096 ≤ 2 ^ 48
  draws : DrawsOn info t
  glyphs : ∀ s, MemoryInv info.memMap root a own K m s → ∀ offset, InGlyphs t offset →
    s.machine.load8 (glyphBuffer + BitVec.ofInt 64 offset) = some (t.glyphBuffer offset)

/-- The devices are those of the one system, and the memory holds the objects of the other.  If the
frames of the framebuffer are none of the kernel's own, it shows what the handler has drawn. -/
def SideBySide (info : BootInfo) (root a : BitVec 64) (own K : Set (BitVec 64)) (b : Board)
    (shown : Prop) (w : Running) (p : System × Objects) : Prop :=
  w.system = p.1 ∧ DrawnInv info b.target root a (own ∪ screenFrames info) K
    (prepareInterrupts b.handlers b.kernel).2.mem
    (shown ∧ ∀ f ∈ screenFrames info, f ∉ own) w.memory p.2
    w.system.keyboard.globalRenderer

theorem sideBySide_of_drawn {info : BootInfo} {root a : BitVec 64} {own K : Set (BitVec 64)}
    {b : Board} {shown : Prop} {s : System} {u : MemoryState} {o : Objects} {r : BasicRenderer}
    (hr : s.keyboard.globalRenderer = r)
    (h : DrawnInv info b.target root a (own ∪ screenFrames info) K
      (prepareInterrupts b.handlers b.kernel).2.mem (shown ∧ ∀ f ∈ screenFrames info, f ∉ own) u o
      r) : SideBySide info root a own K b shown ⟨s, u⟩ (s, o) := by
  subst hr
  exact ⟨rfl, h⟩

section Answered

variable {info : BootInfo} {root a glyphBuffer : BitVec 64} {own K : Set (BitVec 64)} {b : Board}

/-- **Every step is a step of one of the two.** -/
theorem RunningStep.answered {full : Bool} {shown : Prop} {w w' : Running} {p : System × Objects}
    {i : Event ⊕ MemoryOp} (hwf : WellFormedMap info.memMap) (hpages : 1 ≤ totalFrames info.memMap)
    (hsize : (totalMem info.memMap).toNat ≤ 2 ^ 48) (hroot : IsFrame root)
    (hK : (requestPage b.kernel).1 ∈ K) (hne : (requestPage b.kernel).1 ≠ 0)
    (hnot : (requestPage b.kernel).1 ∉ own ∪ screenFrames info)
    (hdraw : Drawable info b.target glyphBuffer root a (own ∪ screenFrames info) K
      (prepareInterrupts b.handlers b.kernel).2.mem)
    (hw : SideBySide info root a own K b shown w p)
    (hstep : RunningStep b full info own glyphBuffer (prepareInterrupts b.handlers b.kernel).1
      ⟨root⟩ w i w') (hOk : AllGranted info.memMap w'.memory.blocks) :
    ∃ p', Beside (DeliveryStep b full) Objects.Step p i p' ∧
      SideBySide info root a own K b shown w' p' := by
  obtain ⟨_, t⟩ := p
  obtain ⟨rfl, hinv⟩ := hw
  have hscreen : screenFrames info ⊆ own ∪ screenFrames info := Set.subset_union_right
  cases hstep with
  | accept v p hcpu hacks =>
      have hfull : FullAtReset full w.system .cpu := fullAtReset_of_ne (by simp [hcpu])
      rw [hinv.memory.enterVia_eq hpages hK hne hnot v]
      exact ⟨_, Beside.left _ _ t _ ⟨Step.accept w.system v p hcpu hacks, trivial, hfull⟩, rfl,
        hinv⟩
  | draw c k hcpu hinside hmapped hrun =>
      have hfull : FullAtReset full w.system .cpu := fullAtReset_of_ne (by simp [hcpu])
      obtain ⟨hinv', -⟩ := (hinv.handleKeyboard hwf hroot hdraw.below hscreen hdraw.draws
        hdraw.glyphs hmapped hinside).of_eq hrun
      exact ⟨_, Beside.left _ _ t _ ⟨Step.keyboardHandle w.system c hcpu, trivial, hfull⟩, rfl,
        hinv'⟩
  | other e s hstep hother =>
      have hkeyboard := hstep.1.keyboard_eq fun he => (hother he).2
      exact ⟨_, Beside.left _ _ t _ hstep, rfl, hkeyboard ▸ hinv⟩
  | memory op u hkernel huse =>
      obtain ⟨t', hobject, hinv'⟩ := hinv.memoryUse hwf hroot hdraw.below hscreen hpages hsize
        Set.subset_union_left (fun halone => halone.2) hdraw.draws huse hOk
      exact ⟨_, Beside.right w.system _ _ _ hobject, rfl, hinv'⟩

end Answered

/-! ## The start -/

section Start

variable {m : Mem} {info : BootInfo} {a pageCount glyphBuffer : BitVec 64} {own : Set (BitVec 64)}
  {b : Board} {k₀ k₁ : KernelHeap PageFrameAllocator}

/-- The framebuffer has been cleared, and `prepare_interrupts` has not written to it. -/
theorem HeapBoot.screen_zero (hboot : HeapBoot m info a pageCount k₀ k₁)
    (hsize : (totalMem info.memMap).toNat ≤ 2 ^ 44) (hlow : 4096 ≤ info.baseAdress.toNat)
    (hown : ∀ f ∈ own, UsedAtBoot info f) (hnull : ∀ r ∈ k₁.machine.requests, r.frame ≠ 0)
    (hidt : ∀ page k, HeapM.requestPage globalAllocator k₁ = some (page, k) → page ≠ 0)
    (h : Handlers) (halone : ∀ f ∈ screenFrames info, f ∉ own) {x : Addr}
    (hx : ScreenByte info x) : (EtaOs.prepareInterrupts h k₁.machine).2.mem x = 0 := by
  obtain ⟨⟨hpages, hroot⟩, hrec, hstart⟩ := hboot.imageInv hsize hown hnull
  obtain ⟨-, -, -, -, hkept, hfar⟩ :=
    hstart.callPrepareInterrupts hboot.wellFormed hpages hboot.size_le hroot hrec hidt h
  obtain ⟨-, hlt⟩ := screenByte_lt hboot.frameBufBelow hx
  obtain ⟨-, hi⟩ := frameOf_of_lt hlt
  have hf : frameOf x ∈ screenFrames info := ⟨x, hx, rfl⟩
  have hused := usedAtBoot_screen hboot.frameBufBelow hlow hboot.screen hf
  have hsame : SameOn (frameOf x) 4096 (clearedMemory info m)
      (EtaOs.prepareInterrupts h k₁.machine).2.mem := by
    by_cases hreach : frameIndex (frameOf x) < reach info.memMap
    · exact hkept _ ⟨hused, hreach⟩ hused.ne (halone _ hf)
    · exact hfar _ hused.frame (by omega) hused.notBitmap (halone _ hf)
  exact (hsame x hi).trans (if_pos hx)

/-- **Behind `prepare_interrupts`** there is what drawing needs, with no objects yet, and what the
boot loader left is still there. -/
theorem HeapBoot.drawnInv (hboot : HeapBoot m info a pageCount k₀ k₁)
    (hsize : (totalMem info.memMap).toNat ≤ 2 ^ 44) (hlow : 4096 ≤ info.baseAdress.toNat)
    (hown : ∀ f ∈ own, UsedAtBoot info f) (hdraws : DrawsOn info b.target)
    (hfont : FontAt info (own ∪ screenFrames info) m b.target glyphBuffer)
    (hb : b.kernel = k₁.machine) (hnull : ∀ r ∈ k₁.machine.requests, r.frame ≠ 0)
    (hidt : ∀ page k, HeapM.requestPage globalAllocator k₁ = some (page, k) → page ≠ 0) :
    (1 ≤ totalFrames info.memMap ∧ IsFrame (pml4 m info)) ∧
      ((requestPage b.kernel).1 ≠ 0 ∧ (requestPage b.kernel).1 ∉ own ∪ screenFrames info) ∧
      HeapM.prepareInterrupts globalAllocator b.handlers k₁ =
        some ((EtaOs.prepareInterrupts b.handlers b.kernel).1, interruptsPrepared b.handlers k₁) ∧
      Recorded info.memMap (interruptsPrepared b.handlers k₁).machine ∧
      Drawable info b.target glyphBuffer (pml4 m info) a (own ∪ screenFrames info)
        (insert (requestPage b.kernel).1 (imageFrames info))
        (EtaOs.prepareInterrupts b.handlers b.kernel).2.mem ∧
      (∀ s, MemoryInv info.memMap (pml4 m info) a (own ∪ screenFrames info)
          (insert (requestPage b.kernel).1 (imageFrames info))
          (EtaOs.prepareInterrupts b.handlers b.kernel).2.mem s →
        MemoryInv info.memMap (pml4 m info) a (own ∪ screenFrames info) (imageFrames info)
          (clearedMemory info m) s) ∧
      ∀ (r : BasicRenderer) (bytes : Block → ℕ → BitVec 8) (contents : BitVec 64 → ℕ → BitVec 8),
        DrawnInv info b.target (pml4 m info) a (own ∪ screenFrames info)
          (insert (requestPage b.kernel).1 (imageFrames info))
          (EtaOs.prepareInterrupts b.handlers b.kernel).2.mem
          ((∀ y x, Inside b.target (y, x) → r.pixels
            (x + y * b.target.targetFramebuffer.pixelsPerScanline.toNat) = 0) ∧
              ∀ f ∈ screenFrames info, f ∉ own)
          ⟨⟨interruptsPrepared b.handlers k₁, []⟩, []⟩ ⟨⟨[], bytes⟩, [], contents⟩ r := by
  have hown' : ∀ f ∈ own ∪ screenFrames info, UsedAtBoot info f := by
    rintro f (hf | hf)
    · exact hown f hf
    · exact usedAtBoot_screen hboot.frameBufBelow hlow hboot.screen hf
  obtain ⟨next, target, h, kernel⟩ := b
  obtain rfl : kernel = k₁.machine := hb
  obtain ⟨⟨hpages, hroot⟩, hrec, hstart⟩ := hboot.imageInv hsize hown' hnull
  obtain ⟨hframe, hcall, hrec', hprepared, hkept, hfar⟩ := hstart.callPrepareInterrupts
    hboot.wellFormed hpages hboot.size_le hroot hrec hidt h
  have hback := fun s (hinv : MemoryInv info.memMap (pml4 m info) a (own ∪ screenFrames info)
      (insert (requestPage k₁.machine).1 (imageFrames info))
      (EtaOs.prepareInterrupts h k₁.machine).2.mem s) =>
    hinv.mono (Set.subset_insert _ _) (ownFrames_image hown') hkept hfar
  refine ⟨⟨hpages, hroot⟩, hframe, hcall, hrec', ⟨hboot.frameBufBelow, hdraws, ?_⟩, hback, ?_⟩
  · intro s hinv offset hin
    exact hfont.load8 Set.subset_union_right (hback s hinv) hin
  · intro r bytes contents
    refine ⟨hprepared, holdsObjects_start _ bytes contents, fun hshown => ?_⟩
    obtain ⟨hzero, halone⟩ := hshown
    exact showsPixels_zero hdraws
      (fun x hx => hboot.screen_zero hsize hlow hown hnull hidt h halone hx) hzero

end Start

/-! ## The result -/

section Result

variable {m : Mem} {info : BootInfo} {a pageCount glyphBuffer : BitVec 64} {own : Set (BitVec 64)}
  {b : Board} {k₀ k₁ : KernelHeap PageFrameAllocator}

section Steps

variable {full : Bool} {idtr : Idtr} {ptm : PageTableManager} {w w' u : Running}
  {i : Event ⊕ MemoryOp} {labels : List (Event ⊕ MemoryOp)}
  {R : KernelHeap PageFrameAllocator → KernelHeap PageFrameAllocator → Prop}
  [hR : HeapRel globalAllocator ptm R]

/-- A step moves the machine by every relation by which the uses of memory move. -/
theorem RunningStep.moves (hrequest : Moves R (HeapM.requestPage globalAllocator))
    (h : RunningStep b full info own glyphBuffer idtr ptm w i w') :
    R w.memory.blocks.heap w'.memory.blocks.heap := by
  cases h with
  | accept v p hcpu hacks => exact hR.refl _
  | draw c k hcpu hinside hmapped hdraw =>
      exact HeapM.moves_handleKeyboard _ _ _ hdraw
  | other e s hstep hother => exact hR.refl _
  | memory op u hkernel huse => exact huse.moves hrequest

/-- A run moves it as well. -/
theorem running_moves (hrequest : Moves R (HeapM.requestPage globalAllocator))
    (hrun : Steps (RunningStep b full info own glyphBuffer idtr ptm) w labels u) :
    R w.memory.blocks.heap u.memory.blocks.heap :=
  hrun.moves (M := fun w u => R w.memory.blocks.heap u.memory.blocks.heap)
    (fun w => hR.refl w.memory.blocks.heap) (fun _ _ _ => hR.trans _ _ _)
    fun _ _ _ h => h.moves hrequest

omit hR in
/-- What later requests return does not change what earlier ones returned. -/
theorem RunningStep.backwards (w : Running) (i : Event ⊕ MemoryOp) (w' : Running)
    (h : RunningStep b full info own glyphBuffer idtr ptm w i w')
    (hOk : AllGranted info.memMap w'.memory.blocks) : AllGranted info.memMap w.memory.blocks := by
  have hgrow : Recorder w.memory.blocks.heap w'.memory.blocks.heap := h.moves recorder_requestPage
  exact fun r hr => hOk r (hgrow.subset hr)

end Steps

/-- **Every run is a run of each of the two**, from where they are side by side on. -/
theorem running_run {root : BitVec 64} {K : Set (BitVec 64)} {full : Bool} {shown : Prop}
    {w u : Running} {p : System × Objects} {labels : List (Event ⊕ MemoryOp)}
    (hwf : WellFormedMap info.memMap) (hpages : 1 ≤ totalFrames info.memMap)
    (hsize : (totalMem info.memMap).toNat ≤ 2 ^ 48) (hroot : IsFrame root)
    (hK : (requestPage b.kernel).1 ∈ K) (hne : (requestPage b.kernel).1 ≠ 0)
    (hnot : (requestPage b.kernel).1 ∉ own ∪ screenFrames info)
    (hdraw : Drawable info b.target glyphBuffer root a (own ∪ screenFrames info) K
      (EtaOs.prepareInterrupts b.handlers b.kernel).2.mem)
    (hw : SideBySide info root a own K b shown w p) (hrec : Recorded info.memMap w.memory.machine)
    (hrun : Steps (RunningStep b full info own glyphBuffer
      (EtaOs.prepareInterrupts b.handlers b.kernel).1 ⟨root⟩) w labels u)
    (hnull : ∀ r ∈ u.memory.machine.requests, r.frame ≠ 0) :
    ∃ t, Steps (DeliveryStep b full) p.1 (labels.filterMap Sum.getLeft?) u.system ∧
      Steps Objects.Step p.2 (labels.filterMap Sum.getRight?) t ∧
      DrawnInv info b.target root a (own ∪ screenFrames info) K
        (EtaOs.prepareInterrupts b.handlers b.kernel).2.mem
        (shown ∧ ∀ f ∈ screenFrames info, f ∉ own) u.memory t
        u.system.keyboard.globalRenderer := by
  have hkeeps : KeepsRecord info.memMap w.memory.blocks.heap u.memory.blocks.heap :=
    running_moves keepsRecord_requestPage hrun
  have hOk : AllGranted info.memMap u.memory.blocks := (hkeeps hrec).granted hsize hnull
  obtain ⟨⟨_, t⟩, hsteps, rfl, hinv⟩ := hrun.simulate RunningStep.backwards
    (fun w p i w' hw hstep hOk' => RunningStep.answered hwf hpages hsize hroot hK hne hnot hdraw hw
      hstep hOk')
    hOk hw
  obtain ⟨hsystem, hobjects⟩ := hsteps.of_beside
  exact ⟨t, hsystem, hobjects, hinv⟩

/-- **The running kernel is two systems side by side.**  On a machine of at most 16 TiB, after
`prepare_mem`, the clearing of the framebuffer, `init_heap` and `prepare_interrupts`, in every
interleaving of the accesses to the ports, of keys, timer and other devices, of interrupts that are
taken through the table in memory, of the statements of the handlers with what they draw, and of the
uses of memory by the kernel, in which no request has returned `NULL`: the devices and the processor
make a run of the system whose table is fixed, the memory makes a run of the memory of objects, and
the table stays loaded.  If the kernel itself leaves the framebuffer alone, its bytes are the pixels
that the handler has drawn. -/
theorem running_refines (hboot : HeapBoot m info a pageCount k₀ k₁)
    (hsize : (totalMem info.memMap).toNat ≤ 2 ^ 44) (hlow : 4096 ≤ info.baseAdress.toNat)
    (hown : ∀ f ∈ own, UsedAtBoot info f) (hdraws : DrawsOn info b.target)
    (hfont : FontAt info (own ∪ screenFrames info) m b.target glyphBuffer)
    (hb : b.kernel = k₁.machine) (hnull : ∀ r ∈ k₁.machine.requests, r.frame ≠ 0)
    (hidt : ∀ page k, HeapM.requestPage globalAllocator k₁ = some (page, k) → page ≠ 0) :
    ∃ idtr k₂, HeapM.prepareInterrupts globalAllocator b.handlers k₁ = some (idtr, k₂) ∧
      ∀ full s labels u, Steps (RunningStep b full info own glyphBuffer idtr ⟨pml4 m info⟩)
          ⟨s, ⟨⟨k₂, []⟩, []⟩⟩ labels u → (∀ r ∈ u.memory.machine.requests, r.frame ≠ 0) →
        ∀ (bytes : Block → ℕ → BitVec 8) (contents : BitVec 64 → ℕ → BitVec 8),
          Steps (DeliveryStep b full) s (labels.filterMap Sum.getLeft?) u.system ∧
          (∃ t, Steps Objects.Step ⟨⟨[], bytes⟩, [], contents⟩ (labels.filterMap Sum.getRight?) t ∧
            HoldsObjects u.memory t) ∧
          Loaded b.handlers idtr (frameTable b.kernel) u.memory.machine ∧
          ((∀ f ∈ screenFrames info, f ∉ own) →
            (∀ y x, Inside b.target (y, x) → s.keyboard.globalRenderer.pixels
              (x + y * b.target.targetFramebuffer.pixelsPerScanline.toNat) = 0) →
            ShowsPixels b.target u.memory.machine.mem u.system.keyboard.globalRenderer) := by
  obtain ⟨⟨hpages, hroot⟩, ⟨hne, hnot⟩, hcall, hrec, hdraw, -, hdrawn⟩ :=
    hboot.drawnInv hsize hlow hown hdraws hfont hb hnull hidt
  refine ⟨_, _, hcall, fun full s labels u hrun hnull' bytes contents => ?_⟩
  -- the table is among the frames that the invariant keeps
  have hmem : (requestPage b.kernel).1 ∈ insert (requestPage b.kernel).1 (imageFrames info) :=
    Set.mem_insert _ _
  obtain ⟨t, hsystem, hobjects, hinv⟩ := running_run hboot.wellFormed hpages hboot.size_le hroot
    hmem hne hnot hdraw (sideBySide_of_drawn rfl (hdrawn _ bytes contents)) hrec hrun hnull'
  exact ⟨hsystem, ⟨t, hobjects, hinv.objects⟩, hinv.memory.loaded hpages hmem hne hnot,
    fun halone hzero => hinv.shown ⟨hzero, halone⟩⟩

/-- A screen of 32 by 32 pixels with the font in the second frame of the kernel. -/
def smallScreen : Target where
  targetFramebuffer := ⟨0xc00000, 0x1000, 32, 32, 32⟩
  psf1Header := ⟨0x36, 0x04, 0, 16⟩
  glyphBuffer offset := BitVec.setWidth 8 (0x201000 + BitVec.ofInt 64 offset)
  color := 0xffffffff
  clearColor := 0

/-- The board with this screen. -/
def smallBoard (k : Kernel) : Board := { clearBoard with target := smallScreen, kernel := k }

/-- The handler has read the scancode of `a`, and the timer is waiting. -/
def keyInHand : System :=
  { handedOver false with
    pics := ⟨⟨{0}, {1}, ⟨0xf8, 0x20, 4, 1, .ready, false, true⟩⟩,
      ⟨∅, ∅, ⟨0xef, 0x28, 2, 1, .ready, false, true⟩⟩, false⟩
    cpu := .keyboardHandle 0x1e
    pressed := [0x1e] }

theorem drawsOn_smallScreen : DrawsOn (sixteenMegabytes 0x100000) smallScreen := by
  refine ⟨rfl, fun y x hin => ?_⟩
  obtain ⟨hy, hx⟩ := hin
  have hheight : smallScreen.targetFramebuffer.height.toNat = 32 := rfl
  have hwidth : smallScreen.targetFramebuffer.width.toNat = 32 := rfl
  have hpps : smallScreen.targetFramebuffer.pixelsPerScanline.toNat = 32 := rfl
  have hbytes : (sixteenMegabytes 0x100000).bufferSize.toNat = 0x1000 := rfl
  rw [hheight] at hy
  rw [hwidth] at hx
  rw [hpps, hbytes]
  dsimp only at hy hx
  omega

theorem keyInside_keyInHand : KeyInside 0 smallScreen keyInHand.keyboard 0x1e := by
  refine ⟨fun _ _ _ => by decide, fun _ _ _ i hi k hk _ => ?_, fun h => absurd h (by decide)⟩
  have hcursor : keyInHand.keyboard.globalRenderer.cursorPosition = ⟨0, 0⟩ := rfl
  have hzero : (toUInt 0).toNat = 0 := by decide
  have hheight : smallScreen.targetFramebuffer.height.toNat = 32 := rfl
  have hwidth : smallScreen.targetFramebuffer.width.toNat = 32 := rfl
  rw [hcursor, hzero, hheight, hwidth]
  omega

theorem fontAt_smallScreen : FontAt (sixteenMegabytes 0x100000)
    ({0x200000} ∪ screenFrames (sixteenMegabytes 0x100000)) (BitVec.setWidth 8) smallScreen
    0x201000 := by
  rintro offset ⟨hlo, hhi⟩
  lift offset to ℕ using hlo
  have hsize : smallScreen.psf1Header.glyphBufferSize.toNat = 4096 := by decide
  rw [hsize] at hhi
  refine ⟨0x201000, bootImage_kernel (by decide) (by decide) (by decide), ?_, ?_, rfl⟩
  · rintro (h | h)
    · exact absurd (Set.mem_singleton_iff.mp h) (by decide)
    · exact absurd (screenFrames_sixteenMegabytes h).1 (by decide)
  · rw [BitVec.ofInt_natCast]
    bv_omega

/-- From there the key is drawn, a byte is stored to a variable of the kernel, and the interrupt of
the timer is taken. -/
theorem running_keyInHand {root a : BitVec 64} {K : Set (BitVec 64)} {m : Mem} {alone : Prop}
    {idtr : Idtr} {k k₁ : KernelHeap PageFrameAllocator} {o : Objects} (hroot : IsFrame root)
    (hdraw : Drawable (sixteenMegabytes 0x100000) smallScreen 0x201000 root a
      ({0x200000} ∪ screenFrames (sixteenMegabytes 0x100000)) K m)
    (hinv : DrawnInv (sixteenMegabytes 0x100000) smallScreen root a
      ({0x200000} ∪ screenFrames (sixteenMegabytes 0x100000)) K m alone ⟨⟨k, []⟩, []⟩ o
      keyInHand.keyboard.globalRenderer) :
    ∃ u : Running, SameRecords k u.memory.blocks.heap ∧
      u.system.keyboard = handleKeyboard 0 smallScreen 0x1e keyInHand.keyboard ∧
      Steps (RunningStep (smallBoard k₁.machine) false (sixteenMegabytes 0x100000) {0x200000}
        0x201000 idtr ⟨root⟩) ⟨keyInHand, ⟨⟨k, []⟩, []⟩⟩
        [.inl .cpu, .inl .cpu, .inl .cpu, .inr (.own 0x200008 1), .inl .cpu] u := by
  have hbase : (0x100000 : BitVec 64) = 0 ∨ (0x100000 : BitVec 64) = 0x100000 := Or.inr rfl
  have hmapped := hinv.memory.screenMapped_sixteenMegabytes
  obtain ⟨_, k', hkey, hinv', -⟩ := hinv.handleKeyboard (sixteenMegabytes_wellFormed hbase) hroot
    hdraw.below Set.subset_union_right hdraw.draws hdraw.glyphs hmapped keyInside_keyInHand
  have hphys : k'.machine.phys 0x200008 = some (frameByte 0x200000 8) :=
    hinv'.memory.direct_memory (f := 0x200000) (by decide)
      (by rw [totalFrames_sixteenMegabytes hbase]; decide) (by decide)
  have hstore := store8_of_phys 1 hphys
  have hdrawn : SameRecords k k' := HeapM.moves_handleKeyboard _ _ _ hkey
  have hstored : SameRecords k' _ := HeapM.moves_store8 _ _ _ hstore
  have htimer : (picEndMaster keyInHand.pics).master.Next 0 :=
    ⟨by decide, fun m _ => Fin.zero_le m⟩
  exact ⟨_, IsTrans.trans _ _ _ hdrawn hstored, rfl,
    Steps.cons _ _ _ _ _ (RunningStep.draw ⟨keyInHand, _⟩ 0x1e k' rfl keyInside_keyInHand
      hmapped hkey) <|
    Steps.cons _ _ _ _ _ (RunningStep.other _ .cpu _
      ⟨Step.keyboardEnd _ rfl, trivial, fullAtReset_of_ne fun _ h => Cpu.noConfusion h⟩
      fun _ => ⟨fun h => Cpu.noConfusion h, fun _ h => Cpu.noConfusion h⟩) <|
    Steps.cons _ _ _ _ _ (RunningStep.other _ .cpu _
      ⟨Step.iret _ rfl, trivial, fullAtReset_of_ne fun _ h => Cpu.noConfusion h⟩
      fun _ => ⟨fun h => Cpu.noConfusion h, fun _ h => Cpu.noConfusion h⟩) <|
    Steps.cons _ _ _ _ _ (RunningStep.memory _ _ _ (Or.inl (Or.inr rfl))
      (MemoryUse.own _ _ _ 8 _ _ rfl (by decide) hphys hstore)) <|
    Steps.single (RunningStep.accept _ 0x20 _ rfl (Pair.Acks.direct _ 0 htimer rfl))⟩

/-- A key is drawn, and a byte is stored to a variable of the kernel, before the interrupt of the
timer; and a `malloc` is run. -/
theorem running_refines_sixteenMegabytes : ∃ (k₀ k₁ : KernelHeap PageFrameAllocator) (idtr : Idtr)
    (u u' : Running),
    HeapBoot (BitVec.setWidth 8) (sixteenMegabytes 0x100000) 0x100000000000 1 k₀ k₁ ∧
      (Steps (DeliveryStep (smallBoard k₁.machine) false) keyInHand [.cpu, .cpu, .cpu, .cpu]
          u.system ∧
        Loaded clearBoard.handlers idtr (frameTable k₁.machine) u.memory.machine ∧
        load32 u.memory.machine.mem (pixelPtr smallScreen 0 3) = 0xffffffff) ∧
      ∃ t, Steps Objects.Step ⟨⟨[], fun _ _ => 0⟩, [], fun _ _ => 0⟩
        [.block (.malloc 16 0x100000000020)] t ∧ HoldsObjects u'.memory t := by
  obtain ⟨k₀, k₁, hboot, hnull, hidt, hnext⟩ :=
    prepared_sixteenMegabytes (BitVec.setWidth 8) clearBoard.handlers
  have hsize : (totalMem (sixteenMegabytes 0x100000).memMap).toNat ≤ 2 ^ 44 :=
    (totalMem_sixteenMegabytes_le (Or.inr rfl)).trans (by decide)
  have hlow : 4096 ≤ (sixteenMegabytes 0x100000).baseAdress.toNat := by decide
  obtain ⟨idtr, k₂, hcall, hruns⟩ := running_refines (b := smallBoard k₁.machine) hboot hsize hlow
    usedAtBoot_variables drawsOn_smallScreen fontAt_smallScreen rfl hnull hidt
  obtain ⟨⟨-, hroot⟩, -, hcall', -, hdraw, -, hdrawn⟩ := hboot.drawnInv
    (b := smallBoard k₁.machine) hsize hlow usedAtBoot_variables drawsOn_smallScreen
    fontAt_smallScreen rfl hnull hidt
  obtain ⟨rfl, rfl⟩ := Prod.mk.inj (Option.some.inj (hcall.symm.trans hcall'))
  obtain ⟨k', hmalloc, hnull'⟩ := hnext _ _ hcall
  -- the key
  have hinv := hdrawn keyInHand.keyboard.globalRenderer (fun _ _ => 0) fun _ _ => 0
  obtain ⟨u, hsame, hkeyboard, hrun⟩ := running_keyInHand hroot hdraw hinv
  have hgrow : Recorder (interruptsPrepared clearBoard.handlers k₁) k' := hmalloc.1.moves
  have hrequests : ∀ r ∈ u.memory.machine.requests, r.frame ≠ 0 := by
    rw [MemoryState.machine, hsame.requests]
    exact fun r hr => hnull' r (hgrow.subset hr)
  obtain ⟨hsystem, -, hloaded, hshown⟩ := hruns false keyInHand _ u hrun hrequests (fun _ _ => 0)
    fun _ _ => 0
  have hlit : (handleKeyboard 0 smallScreen 0x1e keyInHand.keyboard).globalRenderer.pixels
      (3 + 0 * smallScreen.targetFramebuffer.pixelsPerScanline.toNat) = 0xffffffff := by
    decide +kernel
  have hinside : Inside smallScreen (0, 3) := ⟨by decide, by decide⟩
  have hpixel := hshown (fun f hf h => absurd (screenFrames_sixteenMegabytes hf).1
    (by rw [Set.mem_singleton_iff.mp h]; decide)) (fun _ _ _ => rfl) 0 3 hinside
  rw [hkeyboard] at hpixel
  -- the malloc
  obtain ⟨-, hobjects, -⟩ := hruns false { keyInHand with cpu := .kernel } _ _
    (Steps.single (RunningStep.memory ⟨_, _⟩ _ _ (Or.inl (Or.inr rfl))
      (MemoryUse.block _ _ _ hmalloc)))
    hnull' (fun _ _ => 0) fun _ _ => 0
  exact ⟨k₀, k₁, _, u, _, hboot, ⟨hsystem, hloaded, hpixel.trans hlit⟩, hobjects⟩

end Result

end EtaOs
