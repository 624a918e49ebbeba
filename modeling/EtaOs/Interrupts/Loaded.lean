import EtaOs.Interrupts.Paged
import EtaOs.KernelHeap.BootImage

/-!
# The interrupt table that is loaded stays

The processor reads the table at every interrupt, through the page tables, for as long as the
kernel runs, and the table is in an ordinary frame: nothing but the bitmap keeps the allocator
from giving the frame away once more, nothing but the choice of addresses keeps the heap from
mapping over it, and a segment header or a block in it would be a gate to anywhere.

The frame is requested while the heap is in use, so it is one more frame that somebody has been
given; the invariant of the memory of objects, which keeps such frames, does the rest.  What is new
here is that the gates are written to this frame and to no other.

* `prepareInterrupts_outside`: what `prepare_interrupts` writes lies in the frame it requests.
* `MemoryInv.prepareInterrupts`: the frame is kept from then on.
* `Loaded`: the table is as it was loaded, at its own address.
* `HeapBoot.prepareInterrupts`: the start behind `prepare_interrupts`.
* `table_stays_loaded`: it is so after every run of the uses of memory.
-/

namespace EtaOs

open ByteMemory Fallible IDTDescEntry RadixTree Simulation

/-! ## Where the gates are written -/

/-- An entry lies in the 4096 bytes of the table. -/
theorem entryOf_range (idtr : Idtr) (v : BitVec 8) :
    (entryOf idtr v - idtr.offset).toNat + 16 ≤ 4096 := by
  have hv := v.isLt
  unfold entryOf
  bv_omega

/-- A gate is written in the 4096 bytes of the table. -/
theorem setIdtGate_outside_frame {idtr : Idtr} {mem : Mem} (handler : BitVec 64)
    (vector typeAttr selector : BitVec 8) {x : Addr} (hx : ¬ (x - idtr.offset).toNat < 4096) :
    setIdtGate idtr handler vector typeAttr selector mem x = mem x := by
  have hrange := entryOf_range idtr vector
  exact setIdtGate_outside handler vector typeAttr selector (by bv_omega)

/-- **What `prepare_interrupts` writes** lies in the frame that it requests. -/
theorem prepareInterrupts_outside (h : Handlers) (s : Kernel) {x : Addr}
    (hx : ¬ (x - (requestPage s).1).toNat < 4096) :
    (prepareInterrupts h s).2.mem x = (requestPage s).2.mem x := by
  have hgate : ∀ (handler : BitVec 64) (vector : BitVec 8) (mem : Mem),
      setIdtGate ⟨0x0fff, (requestPage s).1⟩ handler vector IDT_TA_INTERRUPTGATE 0x08 mem x =
        mem x := fun handler vector _ => setIdtGate_outside_frame handler vector _ _ hx
  unfold prepareInterrupts
  dsimp only
  simp only [hgate]

/-- Memories that agree in the frame of the table have the same table. -/
theorem table_congr_frame {idtr : Idtr} {m m' : Mem} (h : SameOn idtr.offset 4096 m m') :
    table idtr m' = table idtr m := by
  funext v
  have hrange := entryOf_range idtr v
  exact load_congr (h.mono hrange)

/-! ## The frame is kept -/

section Kept

variable {memMap : List EfiMemoryDescriptor} {root a : BitVec 64} {n : ℕ} {B : Set (BitVec 64)}
  {m : Mem} {segs : List Segment} {s : KernelState}

/-- **The frame of the table is kept** from `prepare_interrupts` on. -/
theorem BlockInv.prepareInterrupts (hwf : WellFormedMap memMap) (hroot : IsFrame root)
    (hinv : BlockInv memMap root a B m n segs s) (h : Handlers)
    (hOk : Granted memMap (nextRequest bootAllocator s.heap.machine)) :
    BlockInv memMap root a (insert (requestPage s.heap.machine).1 B)
      (EtaOs.prepareInterrupts h s.heap.machine).2.mem n segs
      ⟨interruptsPrepared h s.heap, s.live⟩ := by
  obtain ⟨htaken, -⟩ := hinv.request hwf hroot hOk
  exact (htaken.writeKept hwf hroot (Or.inl rfl) hOk.1
    fun x hx => prepareInterrupts_outside h s.heap.machine hx).1

theorem Recorded.prepareInterrupts {k : KernelHeap PageFrameAllocator}
    (hrec : Recorded memMap k.machine) (h : Handlers) :
    Recorded memMap (interruptsPrepared h k).machine :=
  let ⟨hbitmap, hmem, hframes⟩ := hrec.takeFrame counted_bootAllocator
  ⟨hbitmap, hmem, hframes⟩

/-- **`prepare_interrupts` is a use of memory like others**: what was kept is kept, and the frame
of the table beside it, which is none of the kernel's own. -/
theorem MemoryInv.prepareInterrupts {own K : Set (BitVec 64)} {s : MemoryState}
    (hwf : WellFormedMap memMap) (hroot : IsFrame root) (hinv : MemoryInv memMap root a own K m s)
    (h : Handlers) (hOk : Granted memMap (nextRequest bootAllocator s.machine)) :
    (requestPage s.machine).1 ∉ own ∧
      MemoryInv memMap root a own (insert (requestPage s.machine).1 K)
        (EtaOs.prepareInterrupts h s.machine).2.mem
        ⟨⟨interruptsPrepared h s.blocks.heap, s.blocks.live⟩, s.frames⟩ ∧
      (∀ f ∈ K, f ≠ 0 → f ∉ own → SameOn f 4096 m (EtaOs.prepareInterrupts h s.machine).2.mem) ∧
        SameFarBut memMap own m (EtaOs.prepareInterrupts h s.machine).2.mem := by
  obtain ⟨n, segs, hblocks⟩ := hinv.blocks
  obtain ⟨-, -, hkept⟩ := hblocks.request hwf hroot hOk
  have hprepared := hblocks.prepareInterrupts hwf hroot h hOk
  rw [← Set.union_insert] at hprepared
  have htables := hblocks.mirrors.refines.shown.pages.identity.tables
  obtain ⟨hframe, -, -, -⟩ := htables.alloc.request_frame hOk
  have hownFrames := hinv.ownFrames
  refine ⟨fun hown => ?_, ⟨⟨n, segs, hprepared⟩, fun f hf => ⟨(hinv.frames f hf).1, ?_⟩,
    ⟨hownFrames.frame, hownFrames.ne, hownFrames.notBitmap,
      fun f hf => (hownFrames.apart f hf).imp_left (Or.inr ·)⟩,
    fun f _ _ _ => SameOn.refl _ _ _, (SameFar.refl _ _).but own⟩, fun f hf hne hnot => ?_,
    hinv.far.trans (SameFar.but ?_ own)⟩
  · -- what is the kernel's own was marked before the request, or is beyond reach
    rcases hownFrames.apart _ hown with hK | hfar
    · exact (hkept _ (Or.inr hK) hOk.1).1 rfl
    · exact absurd hOk.2 (Nat.not_lt.mpr hfar)
  · rintro (heq | hK)
    · exact (hkept f (Or.inl hf) (hinv.frames f hf).1).1 heq
    · exact (hinv.frames f hf).2 hK
  · obtain ⟨hother, hsame⟩ := hkept f (Or.inr hf) hne
    have hf' := (hblocks.mirrors.kept f (Or.inr hf) hne).1.held.frame
    refine ((hinv.kept f hf hne hnot).trans hsame).trans fun x hx => ?_
    exact prepareInterrupts_outside h s.machine ((hframe.apart hf' hother.symm).notMem hx)
  · exact (SameFar.requestPage hwf htables.alloc hOk).trans
      (SameFar.of_write hframe hOk.2 fun x hx => prepareInterrupts_outside h s.machine hx)

/-- **A call of `prepare_interrupts`** returns when its request does not return `NULL`. -/
theorem MemoryInv.callPrepareInterrupts {own K : Set (BitVec 64)} {s : MemoryState}
    (hwf : WellFormedMap memMap) (hpages : 1 ≤ totalFrames memMap)
    (hsize : (totalMem memMap).toNat ≤ 2 ^ 48) (hroot : IsFrame root)
    (hinv : MemoryInv memMap root a own K m s) (hrec : Recorded memMap s.machine)
    (hidt : ∀ page k, HeapM.requestPage globalAllocator s.blocks.heap = some (page, k) → page ≠ 0)
    (h : Handlers) :
    ((requestPage s.machine).1 ≠ 0 ∧ (requestPage s.machine).1 ∉ own) ∧
      HeapM.prepareInterrupts globalAllocator h s.blocks.heap =
        some ((EtaOs.prepareInterrupts h s.machine).1, interruptsPrepared h s.blocks.heap) ∧
      Recorded memMap (interruptsPrepared h s.blocks.heap).machine ∧
      MemoryInv memMap root a own (insert (requestPage s.machine).1 K)
        (EtaOs.prepareInterrupts h s.machine).2.mem
        ⟨⟨interruptsPrepared h s.blocks.heap, s.blocks.live⟩, s.frames⟩ ∧
      (∀ f ∈ K, f ≠ 0 → f ∉ own → SameOn f 4096 m (EtaOs.prepareInterrupts h s.machine).2.mem) ∧
        SameFarBut memMap own m (EtaOs.prepareInterrupts h s.machine).2.mem := by
  obtain ⟨_, _, hblocks⟩ := hinv.blocks
  have hid := hblocks.mirrors.refines.shown.pages.identity
  have hne := hidt _ _ (requestPage_of_identityInv hwf hroot hid)
  have hnext : Granted memMap (nextRequest bootAllocator s.machine) := by
    refine ⟨hne, ?_⟩
    rw [reach_of_small hsize]
    exact counted_bootAllocator.frameIndex_lt hrec.bitmap
  obtain ⟨hnot, hprepared, hkept, hfar⟩ := hinv.prepareInterrupts hwf hroot h hnext
  exact ⟨⟨hne, hnot⟩, prepareInterrupts_paged hwf hroot hpages hid hnext h,
    hrec.prepareInterrupts h, hprepared, hkept, hfar⟩

/-- **`prepare_interrupts` changes no page table**: behind its request it writes to the frame that
it got. -/
theorem tablesKept_interruptsPrepared {k : KernelHeap PageFrameAllocator}
    (hwf : WellFormedMap memMap) (hroot : IsFrame root) (htables : TablesInv memMap root k.machine)
    (hOk : Granted memMap (nextRequest bootAllocator k.machine)) (h : Handlers) :
    TablesInv memMap root (interruptsPrepared h k).machine ∧
      TablesKept memMap root (k.machine.takeFrame bootAllocator).2
        (interruptsPrepared h k).machine := by
  obtain ⟨hprepared, hsame, hmarked⟩ := (Held.of_request hwf hroot htables hOk).write hwf hroot
    (htables.takeFrame hwf hroot hOk) fun x hx => prepareInterrupts_outside h k.machine hx
  exact ⟨hprepared, hsame, hmarked, rfl⟩

/-- One frame fewer is left behind it. -/
theorem Supply.prepareInterrupts {S : Finset (List (BitVec 9))} {L : ℕ → Prop} [DecidablePred L]
    {n : ℕ} {k : KernelHeap PageFrameAllocator} (hwf : WellFormedMap memMap) (hroot : IsFrame root)
    (h : Handlers) (hs : Supply memMap root S L (n + 1) k.machine) :
    Supply memMap root S L n (interruptsPrepared h k).machine := by
  obtain ⟨htables, hkept⟩ := tablesKept_interruptsPrepared hwf hroot hs.tables hs.granted h
  exact hkept.supply htables (hs.takeFrame hwf hroot)

/-- A pointer denotes behind it what it has denoted. -/
theorem phys_interruptsPrepared {k : KernelHeap PageFrameAllocator} (hwf : WellFormedMap memMap)
    (hroot : IsFrame root) (htables : TablesInv memMap root k.machine)
    (hcr3 : k.machine.cr3 = some root)
    (hOk : Granted memMap (nextRequest bootAllocator k.machine)) (h : Handlers) (x : Addr) :
    (interruptsPrepared h k).machine.phys x = k.machine.phys x := by
  obtain ⟨-, hkept⟩ := tablesKept_interruptsPrepared hwf hroot htables hOk h
  have htaken := htables.sameOn_requestPage hwf hroot hOk
  have hcr3' : (interruptsPrepared h k).machine.cr3 = k.machine.cr3 :=
    Machine.takeFrame_cr3 bootAllocator k.machine
  refine Machine.phys_congr hcr3' (fun r hr t ht => ?_) x
  obtain rfl := Option.some.inj (hcr3.symm.trans hr)
  exact (htaken t ht).trans (hkept.same t ((table_congr htaken t).mpr ht))

end Kept

/-! ## The result -/

/-- **The table is as it was loaded**: it is at its own address, the gates lead to their handlers,
and the other entries are as the frame had them. -/
structure Loaded (h : Handlers) (idtr : Idtr) (t : BitVec 8 → IDTDescEntry) (s : Kernel) :
    Prop where
  mapped : ∀ x, (x - idtr.offset).toNat < 4096 → s.phys x = some x
  gates : ∀ gate ∈ h.gates, (table idtr s.mem gate.1).getOffset = gate.2 ∧
    (table idtr s.mem gate.1).selector = 0x08 ∧
    (table idtr s.mem gate.1).typeAttr = IDT_TA_INTERRUPTGATE ∧
    (table idtr s.mem gate.1).ist = (t gate.1).ist
  others : ∀ v ∉ installed, table idtr s.mem v = t v

/-- **A frame that is kept holds the table it held.** -/
theorem MemoryInv.loaded {memMap : List EfiMemoryDescriptor} {root a : BitVec 64}
    {own K : Set (BitVec 64)} {k : Kernel} {u : MemoryState} {h : Handlers}
    (hinv : MemoryInv memMap root a own K (EtaOs.prepareInterrupts h k).2.mem u)
    (hpages : 1 ≤ totalFrames memMap) (hK : (requestPage k).1 ∈ K) (hne : (requestPage k).1 ≠ 0)
    (hnot : (requestPage k).1 ∉ own) :
    Loaded h (EtaOs.prepareInterrupts h k).1 (frameTable k) u.machine := by
  obtain ⟨n, segs, hblocks⟩ := hinv.blocks
  have htable : table (EtaOs.prepareInterrupts h k).1 u.machine.mem =
      h.gates.foldl installGate (frameTable k) := by
    rw [← table_prepareInterrupts]
    exact table_congr_frame (hinv.kept _ hK hne hnot)
  have hvectors : h.gates.map Prod.fst = installed := rfl
  refine ⟨fun x hx => hblocks.direct hpages (Or.inr hK) hne hx, fun gate hgate => ?_,
    fun v hv => ?_⟩
  · have hnodup : (h.gates.map Prod.fst).Nodup := by
      rw [hvectors]
      decide
    rw [htable, foldl_installGate_of_mem h.gates hnodup _ hgate]
    exact ⟨getOffset_setOffset (frameTable k gate.1) gate.2, rfl, rfl, rfl⟩
  · rw [htable]
    exact foldl_installGate_of_notMem h.gates _ hv

section Result

variable {m : Mem} {info : BootInfo} {a pageCount : BitVec 64} {own : Set (BitVec 64)}
  {k₀ k₁ : KernelHeap PageFrameAllocator}

/-- **`prepare_interrupts` returns** behind `init_heap`, when its request does not return `NULL`,
and the frame of the table is kept from there on. -/
theorem HeapBoot.prepareInterrupts (hboot : HeapBoot m info a pageCount k₀ k₁)
    (hown : ∀ f ∈ own, UsedAtBoot info f) (hnull : ∀ r ∈ k₁.machine.requests, r.frame ≠ 0)
    (hidt : ∀ page k, HeapM.requestPage globalAllocator k₁ = some (page, k) → page ≠ 0)
    (h : Handlers) :
    (1 ≤ totalFrames info.memMap ∧ IsFrame (pml4 m info)) ∧
      ((requestPage k₁.machine).1 ≠ 0 ∧ (requestPage k₁.machine).1 ∉ own) ∧
      HeapM.prepareInterrupts globalAllocator h k₁ =
        some ((EtaOs.prepareInterrupts h k₁.machine).1, interruptsPrepared h k₁) ∧
      Recorded info.memMap (interruptsPrepared h k₁).machine ∧
      MemoryInv info.memMap (pml4 m info) a own (insert (requestPage k₁.machine).1
          {f | Held info.memMap (pml4 m info) k₀.machine.mem f k₀.machine})
        (EtaOs.prepareInterrupts h k₁.machine).2.mem ⟨⟨interruptsPrepared h k₁, []⟩, []⟩ := by
  obtain ⟨⟨hpages, hroot⟩, hrec, hstart⟩ := hboot.heldInv hown hnull
  obtain ⟨hframe, hcall, hrec', hprepared, -, -⟩ :=
    hstart.callPrepareInterrupts hboot.wellFormed hpages hboot.size_le hroot hrec hidt h
  exact ⟨⟨hpages, hroot⟩, hframe, hcall, hrec', hprepared⟩

/-- **The interrupt table stays loaded.**  When `prepare_mem` has returned, the framebuffer has
been cleared, `init_heap` has returned, and no request has returned `NULL`, then
`prepare_interrupts` returns unless its own request gets `NULL`.  From there on every run of the
heap, of `request_page`, of stores to the frames it returned, of `map_mem` outside the heap, and of
stores of the kernel's own, in any order, in which the calls of the heap keep the payloads apart
and no request returns `NULL`, leaves the table as it was loaded. -/
theorem table_stays_loaded (hboot : HeapBoot m info a pageCount k₀ k₁)
    (hown : ∀ f ∈ own, UsedAtBoot info f) (hnull : ∀ r ∈ k₁.machine.requests, r.frame ≠ 0)
    (hidt : ∀ page k, HeapM.requestPage globalAllocator k₁ = some (page, k) → page ≠ 0)
    (h : Handlers) :
    ∃ idtr k₂, HeapM.prepareInterrupts globalAllocator h k₁ = some (idtr, k₂) ∧
      ∀ ops u, Steps (MemoryUse info.memMap own ⟨pml4 m info⟩) ⟨⟨k₂, []⟩, []⟩ ops u →
        (∀ r ∈ u.machine.requests, r.frame ≠ 0) →
        Loaded h idtr (frameTable k₁.machine) u.machine := by
  obtain ⟨⟨hpages, hroot⟩, ⟨hne, hnot⟩, hcall, hrec, hprepared⟩ :=
    hboot.prepareInterrupts hown hnull hidt h
  refine ⟨_, _, hcall, fun ops u hrun hnull' => ?_⟩
  -- the frame of the table is kept, and is none that is requested later
  obtain ⟨-, -, hinv, -⟩ := memoryUses_run hboot.wellFormed hpages hboot.size_le hroot hprepared
    (holdsObjects_start _ (fun _ _ => 0) fun _ _ => 0) hrec hrun hnull'
  exact hinv.loaded hpages (Set.mem_insert _ _) hne hnot

/-- A machine with a table, in which `malloc` takes a block. -/
theorem prepared_sixteenMegabytes (m : Mem) (h : Handlers) :
    ∃ k₀ k₁ : KernelHeap PageFrameAllocator,
      HeapBoot m (sixteenMegabytes 0x100000) 0x100000000000 1 k₀ k₁ ∧
      (∀ r ∈ k₁.machine.requests, r.frame ≠ 0) ∧
      (∀ page k, HeapM.requestPage globalAllocator k₁ = some (page, k) → page ≠ 0) ∧
      ∀ idtr k₂, HeapM.prepareInterrupts globalAllocator h k₁ = some (idtr, k₂) → ∃ k',
        BlockUse ⟨pml4 m (sixteenMegabytes 0x100000)⟩ ⟨k₂, []⟩
          (.malloc 16 0x100000000020) ⟨k', [⟨0x100000000020, 16⟩]⟩ ∧
        ∀ r ∈ k'.machine.requests, r.frame ≠ 0 := by
  obtain ⟨k₀, k₁, hboot, hsupply⟩ := heapBoot_sixteenMegabytes m
  have hwf := hboot.wellFormed
  have hOk₁ : AllGranted (sixteenMegabytes 0x100000).memMap ⟨k₁, []⟩ :=
    fun r hr => (hsupply.tables.given r hr).2
  obtain ⟨⟨hpages, hroot⟩, hid, hheld, -⟩ := hboot.start fun r hr => (hOk₁ r hr).1
  have hinv₁ := hboot.blockInv (B := ∅) hpages hroot hid hheld (fun f hf => absurd hf (by simp))
    hOk₁
  have hid₁ := hinv₁.mirrors.refines.shown.pages.identity
  have hrequest := requestPage_of_identityInv hwf hroot hid₁
  refine ⟨k₀, k₁, hboot, fun r hr => (hOk₁ r hr).1, fun page k heq => ?_, fun idtr k₂ heq => ?_⟩
  · rw [hrequest] at heq
    obtain ⟨rfl, -⟩ := Prod.mk.inj (Option.some.inj heq)
    exact hsupply.granted.1
  · rw [prepareInterrupts_paged hwf hroot hpages hid₁ hsupply.granted h] at heq
    obtain ⟨-, rfl⟩ := Prod.mk.inj (Option.some.inj heq)
    have hinv₂ := hinv₁.prepareInterrupts hwf hroot h hsupply.granted
    obtain ⟨k', hmalloc, n, segs, hinv'⟩ :=
      hinv₂.malloc_onePage hwf hpages hboot.size_le hroot
    exact ⟨k', hmalloc,
      fun r hr => (hinv'.mirrors.refines.shown.pages.identity.tables.given r hr).2.1⟩

/-- With a block of 16 bytes on a machine of 16 MiB. -/
theorem table_stays_loaded_sixteenMegabytes : ∃ (k₀ k₁ : KernelHeap PageFrameAllocator)
    (idtr : Idtr) (u : MemoryState),
      HeapBoot (fun _ => 0) (sixteenMegabytes 0x100000) 0x100000000000 1 k₀ k₁ ∧
      u.blocks.live = [⟨0x100000000020, 16⟩] ∧
      Loaded ⟨0x200000, 0x200100, 0x200200, 0x200300, 0x200400⟩ idtr (frameTable k₁.machine)
        u.machine := by
  obtain ⟨k₀, k₁, hboot, hnull, hidt, hnext⟩ := prepared_sixteenMegabytes (fun _ => 0)
    ⟨0x200000, 0x200100, 0x200200, 0x200300, 0x200400⟩
  obtain ⟨idtr, k₂, hcall, hruns⟩ := table_stays_loaded hboot usedAtBoot_variables hnull hidt
    ⟨0x200000, 0x200100, 0x200200, 0x200300, 0x200400⟩
  obtain ⟨k', hmalloc, hnull'⟩ := hnext _ _ hcall
  exact ⟨k₀, k₁, idtr, ⟨⟨k', [⟨0x100000000020, 16⟩]⟩, []⟩, hboot, rfl,
    hruns _ _ (Steps.single (MemoryUse.block _ _ _ hmalloc)) hnull'⟩

end Result

end EtaOs
