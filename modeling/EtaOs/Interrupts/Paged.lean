import EtaOs.Interrupts.Idt
import EtaOs.KernelHeap.ObjectRuns

/-!
# `prepare_interrupts` behind the page tables

By the time the interrupt table is made the page tables are loaded.  `prepare_interrupts` asks the
allocator for a frame and keeps its physical address in `idtr.offset`, and `set_idt_gate` makes a
pointer of this number.  So the fields of the gates are stored through the page tables, wherever
these have the number lead, and the call of `request_page` goes through them as well.

`HeapM.setIdtGate` and `HeapM.prepareInterrupts` are the two functions with these pointers.  An
entry is 16 bytes at a multiple of 16, so that no field of it crosses the end of a page, and a
field is stored in one piece.

## Why it is the table of physical memory

A frame that the allocator returns walks to itself, as long as the bitmap is found where it was
before paging.  No table lies in the frame, so that it walks to itself whatever has been stored in
it.  `WritesTo` is this argument as a rule: a program that stores to one frame through pointers
does to memory what the function on physical memory does, and one program behind the other does
what the functions do one behind the other.  With it `prepareInterrupts_paged` says that the
function behind paging returns, and leaves the table that `prepareInterrupts` leaves.
-/

namespace EtaOs

open ByteMemory Fallible IDTDescEntry RadixTree

namespace HeapM

variable {σ : Type}

/-! ## The functions -/

/-- A store of the low `n` bytes of a word through a pointer, which do not cross the end of a
page. -/
def storeWord (n : ℕ) {w : ℕ} (a : Addr) (v : BitVec w) : HeapM σ Unit := fun h =>
  (h.machine.phys a).map fun p =>
    ((), { h with machine := { h.machine with mem := ByteMemory.storeWord n h.machine.mem p v } })

/-- `set_idt_gate`. -/
def setIdtGate (idtr : Idtr) (handler : BitVec 64) (entryOffset typeAttr selector : BitVec 8) :
    HeapM σ Unit := do
  let interrupt := entryOf idtr entryOffset
  storeWord 2 (interrupt + 0) ((handler &&& 0x000000000000ffff#64).setWidth 16)
  storeWord 2 (interrupt + 6) (((handler &&& 0x00000000ffff0000#64) >>> 16).setWidth 16)
  storeWord 4 (interrupt + 8) (((handler &&& 0xffffffff00000000#64) >>> 32).setWidth 32)
  store8 (interrupt + 5) typeAttr
  storeWord 2 (interrupt + 2) (selector.setWidth 16)

/-- `prepare_interrupts`, up to `lidt`, with the register it loads. -/
def prepareInterrupts (source : FrameSource σ) (h : Handlers) : HeapM σ Idtr := do
  let page ← requestPage source
  let idtr : Idtr := ⟨0x0fff, page⟩
  setIdtGate idtr h.pageFaultHandler 0xe IDT_TA_INTERRUPTGATE 0x08
  setIdtGate idtr h.doubleFaultHandler 0x8 IDT_TA_INTERRUPTGATE 0x08
  setIdtGate idtr h.gpFaultHandler 0xd IDT_TA_INTERRUPTGATE 0x08
  setIdtGate idtr h.keyboardIntHandler 0x21 IDT_TA_INTERRUPTGATE 0x08
  setIdtGate idtr h.pitIntHandler 0x20 IDT_TA_INTERRUPTGATE 0x08
  return idtr

end HeapM

/-! ## Programs that store to one frame -/

section WritesTo

variable {σ : Type} {f : BitVec 64} {x y : HeapM σ Unit} {g g' : Mem → Mem}

/-- The frame is mapped to itself, whatever has been stored in it. -/
def MapsItself (s : Machine σ) (f : BitVec 64) : Prop :=
  ∀ m' : Mem, (∀ y, ¬ (y - f).toNat < 4096 → m' y = s.mem y) →
    ∀ y, (y - f).toNat < 4096 → Machine.Direct { s with mem := m' } y

/-- The heap with another memory. -/
def KernelHeap.withMem (k : KernelHeap σ) (m : Mem) : KernelHeap σ :=
  { k with machine := { k.machine with mem := m } }

/-- The program does to memory what the function does, which is to write to the frame. -/
structure WritesTo (f : BitVec 64) (x : HeapM σ Unit) (g : Mem → Mem) : Prop where
  outside : ∀ m y, ¬ (y - f).toNat < 4096 → g m y = m y
  runs : ∀ k, MapsItself k.machine f → x k = some ((), k.withMem (g k.machine.mem))

/-- A frame that has been written to is still mapped to itself. -/
theorem MapsItself.withMem {k : KernelHeap σ} (h : MapsItself k.machine f) {m : Mem}
    (hm : ∀ y, ¬ (y - f).toNat < 4096 → m y = k.machine.mem y) :
    MapsItself (k.withMem m).machine f :=
  fun m' hm' => h m' fun y hy => (hm' y hy).trans (hm y hy)

/-- **One program behind the other.** -/
theorem WritesTo.bind (hx : WritesTo f x g) (hy : WritesTo f y g') :
    WritesTo f (x >>= fun _ => y) fun m => g' (g m) where
  outside := fun m z hz => (hy.outside (g m) z hz).trans (hx.outside m z hz)
  runs := by
    intro k hk
    rw [bind_apply, hx.runs k hk, Option.bind_some]
    exact hy.runs _ (hk.withMem (hx.outside k.machine.mem))

/-- A store in the frame. -/
theorem writesTo_storeWord {w n i : ℕ} {a : Addr} {k : ℕ} (hn : i + n ≤ k) (hpos : 0 < n)
    (hk : (a - f).toNat + k ≤ 4096) (v : BitVec w) :
    WritesTo f (HeapM.storeWord n (a + BitVec.ofNat 64 i) v : HeapM σ Unit) fun m =>
      ByteMemory.storeWord n m (a + BitVec.ofNat 64 i) v where
  outside := by
    intro m z hz
    refine storeWord_outside m a v hn (by omega) ?_
    bv_omega
  runs := by
    intro s hs
    have hdirect : s.machine.Direct (a + BitVec.ofNat 64 i) :=
      hs s.machine.mem (fun _ _ => rfl) _ (by bv_omega)
    rw [HeapM.storeWord, hdirect]
    rfl

/-- A store of one byte is a store of a word of one byte. -/
theorem store8_eq_storeWord_heapM (a : Addr) (v : BitVec 8) :
    (HeapM.store8 a v : HeapM σ Unit) = HeapM.storeWord 1 a v := by
  funext k
  rw [HeapM.store8, Machine.store8, HeapM.storeWord, Option.map_map]
  refine congrArg (fun h => (k.machine.phys a).map h) (funext fun p => ?_)
  rw [← store8_eq_storeWord]
  rfl

/-- **A gate is stored** as it is in physical memory. -/
theorem writesTo_setIdtGate {idtr : Idtr} (handler : BitVec 64)
    (vector typeAttr selector : BitVec 8) (hf : idtr.offset = f) :
    WritesTo f (HeapM.setIdtGate idtr handler vector typeAttr selector : HeapM σ Unit)
      (setIdtGate idtr handler vector typeAttr selector) := by
  have hentry : (entryOf idtr vector - f).toNat + 16 ≤ 4096 := by
    have hv := vector.isLt
    subst hf
    unfold entryOf
    bv_omega
  have hmem : ∀ m, setIdtGate idtr handler vector typeAttr selector m =
      ByteMemory.storeWord 2 (ByteMemory.storeWord 1 (ByteMemory.storeWord 4
        (ByteMemory.storeWord 2 (ByteMemory.storeWord 2 m (entryOf idtr vector + 0)
          ((handler &&& 0x000000000000ffff#64).setWidth 16)) (entryOf idtr vector + 6)
          (((handler &&& 0x00000000ffff0000#64) >>> 16).setWidth 16)) (entryOf idtr vector + 8)
          (((handler &&& 0xffffffff00000000#64) >>> 32).setWidth 32)) (entryOf idtr vector + 5)
          typeAttr) (entryOf idtr vector + 2) (selector.setWidth 16) := by
    intro m
    rw [← store8_eq_storeWord]
    rfl
  have hgate := (writesTo_storeWord (σ := σ) (i := 0) (n := 2) (by omega) (by omega) hentry
      ((handler &&& 0x000000000000ffff#64).setWidth 16)).bind <|
    (writesTo_storeWord (σ := σ) (i := 6) (n := 2) (by omega) (by omega) hentry
      (((handler &&& 0x00000000ffff0000#64) >>> 16).setWidth 16)).bind <|
    (writesTo_storeWord (σ := σ) (i := 8) (n := 4) (by omega) (by omega) hentry
      (((handler &&& 0xffffffff00000000#64) >>> 32).setWidth 32)).bind <|
    (writesTo_storeWord (σ := σ) (i := 5) (n := 1) (by omega) (by omega) hentry typeAttr).bind <|
    writesTo_storeWord (σ := σ) (i := 2) (n := 2) (by omega) (by omega) hentry
      (selector.setWidth 16)
  rw [funext hmem, HeapM.setIdtGate, store8_eq_storeWord_heapM]
  exact hgate

end WritesTo

/-! ## The table -/

section Prepared

variable {memMap : List EfiMemoryDescriptor} {root f : BitVec 64} {m : Mem} {s : Kernel}

/-- **A frame that is held and walks to itself** does so whatever is stored in it. -/
theorem Held.mapsItself (hwf : WellFormedMap memMap) (hroot : IsFrame root)
    (hpages : 1 ≤ totalFrames memMap) (hid : IdentityInv memMap root s)
    (hf : Held memMap root m f s) : MapsItself s f := by
  intro m' hm' y hy
  obtain ⟨-, hsame, -⟩ := hf.write hwf hroot hid.tables hm'
  have hdirect : s.Direct y := direct_of_walk hid.cr3 hf.frame
    (hid.walk_frame hf.frame (lt_of_lt_of_le hf.inReach (reach_le_totalFrames hpages))) hy
  refine hdirect.congr rfl fun r hr t ht => ?_
  obtain rfl := Option.some.inj (hr.symm.trans hid.cr3)
  exact hsame t ht

/-- The heap behind `prepare_interrupts`: a frame has been requested, and the gates are in it. -/
def interruptsPrepared (h : Handlers) (k : KernelHeap PageFrameAllocator) :
    KernelHeap PageFrameAllocator :=
  { k with machine := { (k.machine.takeFrame bootAllocator).2 with
      mem := (prepareInterrupts h k.machine).2.mem } }

/-- **`prepare_interrupts` behind paging** returns, and leaves the table of physical memory. -/
theorem prepareInterrupts_paged {k : KernelHeap PageFrameAllocator} (hwf : WellFormedMap memMap)
    (hroot : IsFrame root) (hpages : 1 ≤ totalFrames memMap)
    (hid : IdentityInv memMap root k.machine)
    (hOk : Granted memMap (nextRequest bootAllocator k.machine)) (h : Handlers) :
    HeapM.prepareInterrupts globalAllocator h k =
      some ((prepareInterrupts h k.machine).1, interruptsPrepared h k) := by
  have hheld := Held.of_request hwf hroot hid.tables hOk
  have hitself := hheld.mapsItself hwf hroot hpages (hid.takeFrame hwf hroot hOk)
  have hgate : ∀ (handler : BitVec 64) (vector : BitVec 8),
      WritesTo (requestPage k.machine).1 (HeapM.setIdtGate ⟨0x0fff, (requestPage k.machine).1⟩
        handler vector IDT_TA_INTERRUPTGATE 0x08 : HeapM PageFrameAllocator Unit)
        (setIdtGate ⟨0x0fff, (requestPage k.machine).1⟩ handler vector IDT_TA_INTERRUPTGATE 0x08) :=
    fun handler vector => writesTo_setIdtGate handler vector _ _ rfl
  have hgates := (hgate h.pageFaultHandler 0xe).bind <| (hgate h.doubleFaultHandler 0x8).bind <|
    (hgate h.gpFaultHandler 0xd).bind <| (hgate h.keyboardIntHandler 0x21).bind <|
    hgate h.pitIntHandler 0x20
  have hrun := hgates.runs { k with machine := (k.machine.takeFrame bootAllocator).2 } hitself
  have hbind : HeapM.prepareInterrupts globalAllocator h = (do
      let page ← HeapM.requestPage globalAllocator
      let _ ← (do
        HeapM.setIdtGate ⟨0x0fff, page⟩ h.pageFaultHandler 0xe IDT_TA_INTERRUPTGATE 0x08
        HeapM.setIdtGate ⟨0x0fff, page⟩ h.doubleFaultHandler 0x8 IDT_TA_INTERRUPTGATE 0x08
        HeapM.setIdtGate ⟨0x0fff, page⟩ h.gpFaultHandler 0xd IDT_TA_INTERRUPTGATE 0x08
        HeapM.setIdtGate ⟨0x0fff, page⟩ h.keyboardIntHandler 0x21 IDT_TA_INTERRUPTGATE 0x08
        HeapM.setIdtGate ⟨0x0fff, page⟩ h.pitIntHandler 0x20 IDT_TA_INTERRUPTGATE 0x08)
      pure ⟨0x0fff, page⟩) := by
    simp only [HeapM.prepareInterrupts, bind_assoc]
  rw [hbind, bind_apply, requestPage_of_identityInv hwf hroot hid, Option.bind_some, bind_apply,
    hrun]
  rfl

end Prepared

end EtaOs
