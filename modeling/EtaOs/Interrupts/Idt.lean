import EtaOs.Allocator.Requests

/-!
# The interrupt descriptor table

`prepare_interrupts` puts five gates into a frame that it does not clear, and a gate does not
write all fields of its entry.  So the stack index of the five entries, and whether the other
entries are present, is what the frame held before.

The table is read back as the processor reads it, entry by entry from memory, so that what is said
of it is said of the bytes that are left there.  The result is an equivalence in the contents of
the frame, which come from whoever had the frame before.

* `IDTDescEntry`: an entry; `getOffset_setOffset`, its address is kept in three fields.
* `setIdtGate`, `prepareInterrupts`: the code.
* `table`, `table_setIdtGate`: the table of entries, and a gate as the update of one.
* `table_prepareInterrupts`: the table that is loaded.
* `loadsGates_iff`: the contents of the frame with which exactly the five gates are there.
-/

namespace EtaOs

open ByteMemory

/-- `IDT_TA_INTERRUPTGATE`. -/
def IDT_TA_INTERRUPTGATE : BitVec 8 := 0b10001110

/-- `IDTDescEntry`. -/
structure IDTDescEntry where
  offset0 : BitVec 16
  selector : BitVec 16
  ist : BitVec 8
  typeAttr : BitVec 8
  offset1 : BitVec 16
  offset2 : BitVec 32
  ignore : BitVec 32

namespace IDTDescEntry

/-- `IDTDescEntry::set_offset`. -/
def setOffset (e : IDTDescEntry) (offset : BitVec 64) : IDTDescEntry :=
  { e with
    offset0 := (offset &&& 0x000000000000ffff#64).setWidth 16
    offset1 := ((offset &&& 0x00000000ffff0000#64) >>> 16).setWidth 16
    offset2 := ((offset &&& 0xffffffff00000000#64) >>> 32).setWidth 32 }

/-- `IDTDescEntry::get_offset`. -/
def getOffset (e : IDTDescEntry) : BitVec 64 :=
  let offset : BitVec 64 := 0
  let offset := offset ||| e.offset0.setWidth 64
  let offset := offset ||| e.offset1.setWidth 64 <<< 16
  offset ||| e.offset2.setWidth 64 <<< 32

/-- The entry in the 16 bytes at `a`. -/
def load (mem : Mem) (a : Addr) : IDTDescEntry where
  offset0 := load16 mem (a + 0)
  selector := load16 mem (a + 2)
  ist := mem (a + 4)
  typeAttr := mem (a + 5)
  offset1 := load16 mem (a + 6)
  offset2 := load32 mem (a + 8)
  ignore := load32 mem (a + 12)

/-- The entry is marked present. -/
def Present (e : IDTDescEntry) : Prop := e.typeAttr.getLsbD 7 = true

/-- The entry with a gate put in. -/
def install (e : IDTDescEntry) (handler : BitVec 64) (typeAttr selector : BitVec 8) :
    IDTDescEntry :=
  { e.setOffset handler with typeAttr := typeAttr, selector := selector.setWidth 16 }

/-- **The address is kept** in the three fields. -/
theorem getOffset_setOffset (e : IDTDescEntry) (offset : BitVec 64) :
    (e.setOffset offset).getOffset = offset := by
  apply BitVec.eq_of_getLsbD_eq
  intro j hj
  have hmask0 : (0x000000000000ffff#64) = (BitVec.allOnes 16).setWidth 64 := by decide
  have hmask1 : (0x00000000ffff0000#64) = (BitVec.allOnes 16).setWidth 64 <<< 16 := by decide
  have hmask2 : (0xffffffff00000000#64) = (BitVec.allOnes 32).setWidth 64 <<< 32 := by decide
  unfold getOffset setOffset
  rw [hmask0, hmask1, hmask2]
  simp only [BitVec.getLsbD_or, BitVec.getLsbD_setWidth, BitVec.getLsbD_and,
    BitVec.getLsbD_shiftLeft, BitVec.getLsbD_ushiftRight, BitVec.getLsbD_allOnes]
  grind

end IDTDescEntry

open IDTDescEntry

/-- `IDTR`. -/
structure Idtr where
  limit : BitVec 16
  offset : BitVec 64

/-- The entry of a vector. -/
def entryOf (idtr : Idtr) (vector : BitVec 8) : Addr := idtr.offset + vector.setWidth 64 * 16

/-- `set_idt_gate`. -/
def setIdtGate (idtr : Idtr) (handler : BitVec 64) (entryOffset typeAttr selector : BitVec 8)
    (mem : Mem) : Mem :=
  let interrupt := entryOf idtr entryOffset
  let e := (IDTDescEntry.load mem interrupt).setOffset handler
  let mem := store16 mem (interrupt + 0) e.offset0
  let mem := store16 mem (interrupt + 6) e.offset1
  let mem := store32 mem (interrupt + 8) e.offset2
  let mem := store8 mem (interrupt + 5) typeAttr
  store16 mem (interrupt + 2) (selector.setWidth 16)

/-- The addresses of the handlers. -/
structure Handlers where
  pageFaultHandler : BitVec 64
  doubleFaultHandler : BitVec 64
  gpFaultHandler : BitVec 64
  keyboardIntHandler : BitVec 64
  pitIntHandler : BitVec 64

/-- `prepare_interrupts`, up to `lidt`, with the register it loads.  The frame is used at its
physical address, at which it is mapped. -/
def prepareInterrupts (h : Handlers) (s : Kernel) : Idtr × Kernel :=
  let r := requestPage s
  let idtr : Idtr := ⟨0x0fff, r.1⟩
  let mem := r.2.mem
  let mem := setIdtGate idtr h.pageFaultHandler 0xe IDT_TA_INTERRUPTGATE 0x08 mem
  let mem := setIdtGate idtr h.doubleFaultHandler 0x8 IDT_TA_INTERRUPTGATE 0x08 mem
  let mem := setIdtGate idtr h.gpFaultHandler 0xd IDT_TA_INTERRUPTGATE 0x08 mem
  let mem := setIdtGate idtr h.keyboardIntHandler 0x21 IDT_TA_INTERRUPTGATE 0x08 mem
  let mem := setIdtGate idtr h.pitIntHandler 0x20 IDT_TA_INTERRUPTGATE 0x08 mem
  (idtr, { r.2 with mem := mem })

/-! ## One gate -/

section Gate

variable {idtr : Idtr} {mem : Mem}

/-- The entry of a gate. -/
theorem load_setIdtGate_self (handler : BitVec 64) (vector typeAttr selector : BitVec 8) :
    IDTDescEntry.load (setIdtGate idtr handler vector typeAttr selector mem) (entryOf idtr vector) =
      (IDTDescEntry.load mem (entryOf idtr vector)).install handler typeAttr selector := by
  unfold setIdtGate install IDTDescEntry.load
  generalize entryOf idtr vector = a
  simp only [store16, store32, store8_eq_storeWord, BitVec.ofNat_eq_ofNat]
  simp (disch := omega) only [load16_storeWord_of_apart, load32_storeWord_of_apart,
    storeWord_offset_of_apart, load16_storeWord_self, load32_storeWord_self, storeWord_self]
  rfl

/-- The other bytes. -/
theorem setIdtGate_outside (handler : BitVec 64) (vector typeAttr selector : BitVec 8) {x : Addr}
    (hx : 16 ≤ (x - entryOf idtr vector).toNat) :
    setIdtGate idtr handler vector typeAttr selector mem x = mem x := by
  unfold setIdtGate
  simp only [store16, store32, store8_eq_storeWord, BitVec.ofNat_eq_ofNat]
  rw [storeWord_outside _ _ _ (by omega) (by omega) hx,
    storeWord_outside _ _ _ (by omega) (by omega) hx,
    storeWord_outside _ _ _ (by omega) (by omega) hx,
    storeWord_outside _ _ _ (by omega) (by omega) hx,
    storeWord_outside _ _ _ (by omega) (by omega) hx]

/-- An entry depends on its own bytes. -/
theorem load_congr {a : Addr} {mem' : Mem} (h : SameOn a 16 mem mem') :
    IDTDescEntry.load mem' a = IDTDescEntry.load mem a := by
  have hbyte : ∀ j < 16, mem' (a + BitVec.ofNat 64 j) = mem (a + BitVec.ofNat 64 j) :=
    fun j hj => h _ (by bv_omega)
  have hword : ∀ j < 15, load16 mem' (a + BitVec.ofNat 64 j) =
      load16 mem (a + BitVec.ofNat 64 j) := by
    intro j hj
    rw [load16_offset, load16_offset, hbyte j (by omega), hbyte (j + 1) (by omega)]
  have hlong : ∀ j < 13, load32 mem' (a + BitVec.ofNat 64 j) =
      load32 mem (a + BitVec.ofNat 64 j) := by
    intro j hj
    rw [load32_offset, load32_offset, hword j (by omega), hword (j + 2) (by omega)]
  unfold IDTDescEntry.load
  simp only [BitVec.ofNat_eq_ofNat]
  simp (disch := omega) only [hbyte, hword, hlong]

/-- The table of the 256 entries. -/
def table (idtr : Idtr) (mem : Mem) (vector : BitVec 8) : IDTDescEntry :=
  IDTDescEntry.load mem (entryOf idtr vector)

/-- **A gate is the update of one entry.** -/
theorem table_setIdtGate (handler : BitVec 64) (vector typeAttr selector : BitVec 8) :
    table idtr (setIdtGate idtr handler vector typeAttr selector mem) =
      Function.update (table idtr mem) vector
        ((table idtr mem vector).install handler typeAttr selector) := by
  funext v
  rcases eq_or_ne v vector with rfl | hne
  · rw [Function.update_self]
    exact load_setIdtGate_self handler v typeAttr selector
  · rw [Function.update_of_ne hne]
    refine load_congr fun x hx => setIdtGate_outside handler vector typeAttr selector ?_
    have hv := v.isLt
    have hvector := vector.isLt
    have hdiff : v.toNat ≠ vector.toNat := fun h => hne (BitVec.eq_of_toNat_eq h)
    unfold entryOf at hx ⊢
    bv_omega

end Gate

/-! ## All gates -/

/-- The gates, in the order in which they are put in. -/
def Handlers.gates (h : Handlers) : List (BitVec 8 × BitVec 64) :=
  [(0xe, h.pageFaultHandler), (0x8, h.doubleFaultHandler), (0xd, h.gpFaultHandler),
    (0x21, h.keyboardIntHandler), (0x20, h.pitIntHandler)]

/-- The vectors of the gates. -/
def installed : List (BitVec 8) := [0xe, 0x8, 0xd, 0x21, 0x20]

/-- The gate is put into its entry. -/
def installGate (t : BitVec 8 → IDTDescEntry) (gate : BitVec 8 × BitVec 64) :
    BitVec 8 → IDTDescEntry :=
  Function.update t gate.1 ((t gate.1).install gate.2 IDT_TA_INTERRUPTGATE 0x08)

/-- The entries without a gate stay as they are. -/
theorem foldl_installGate_of_notMem (gates : List (BitVec 8 × BitVec 64))
    (t : BitVec 8 → IDTDescEntry) {v : BitVec 8} (hv : v ∉ gates.map Prod.fst) :
    gates.foldl installGate t v = t v := by
  induction gates generalizing t with
  | nil => rfl
  | cons gate gates ih =>
      rw [List.map_cons, List.mem_cons, not_or] at hv
      rw [List.foldl_cons, ih _ hv.2]
      exact Function.update_of_ne hv.1 _ _

/-- **Gates of different vectors** do not disturb each other. -/
theorem foldl_installGate_of_mem (gates : List (BitVec 8 × BitVec 64))
    (hnodup : (gates.map Prod.fst).Nodup) (t : BitVec 8 → IDTDescEntry)
    {gate : BitVec 8 × BitVec 64} (hgate : gate ∈ gates) : gates.foldl installGate t gate.1 =
      (t gate.1).install gate.2 IDT_TA_INTERRUPTGATE 0x08 := by
  induction gates generalizing t with
  | nil => exact absurd hgate List.not_mem_nil
  | cons g gates ih =>
      rw [List.map_cons, List.nodup_cons] at hnodup
      rw [List.foldl_cons]
      rcases List.mem_cons.mp hgate with rfl | hmem
      · rw [foldl_installGate_of_notMem gates _ hnodup.1]
        exact Function.update_self _ _ _
      · have hne : gate.1 ≠ g.1 := by
          rintro heq
          exact hnodup.1 (heq ▸ List.mem_map_of_mem hmem)
        rw [ih hnodup.2 _ hmem, installGate, Function.update_of_ne hne]

/-- The entries in the frame that `request_page` returns. -/
def frameTable (s : Kernel) : BitVec 8 → IDTDescEntry :=
  table ⟨0x0fff, (requestPage s).1⟩ (requestPage s).2.mem

/-- **The table that is loaded** is the one in the frame, with the gates put in. -/
theorem table_prepareInterrupts (h : Handlers) (s : Kernel) :
    table (prepareInterrupts h s).1 (prepareInterrupts h s).2.mem =
      h.gates.foldl installGate (frameTable s) := by
  unfold prepareInterrupts
  dsimp only
  simp only [table_setIdtGate]
  rfl

/-- **The table has exactly the gates**: each of the five entries decodes to its handler, and all
other entries of the table are marked not present. -/
structure LoadsGates (h : Handlers) (idtr : Idtr) (t : BitVec 8 → IDTDescEntry) : Prop where
  gates : ∀ gate ∈ h.gates, (t gate.1).getOffset = gate.2 ∧ (t gate.1).selector = 0x08 ∧
    (t gate.1).typeAttr = IDT_TA_INTERRUPTGATE ∧ (t gate.1).ist = 0
  others : ∀ v : BitVec 8, 16 * v.toNat + 15 ≤ idtr.limit.toNat → v ∉ h.gates.map Prod.fst →
    ¬ (t v).Present

/-- The entries are clean: the stack index of the five entries is zero, and no other entry is
marked present. -/
structure Clean (t : BitVec 8 → IDTDescEntry) : Prop where
  stack : ∀ v ∈ installed, (t v).ist = 0
  absent : ∀ v ∉ installed, ¬ (t v).Present

/-- **The frames with which the table has exactly the gates** are the clean ones. -/
theorem loadsGates_iff (h : Handlers) (s : Kernel) :
    LoadsGates h (prepareInterrupts h s).1
        (table (prepareInterrupts h s).1 (prepareInterrupts h s).2.mem) ↔
      Clean (frameTable s) := by
  have hvectors : h.gates.map Prod.fst = installed := rfl
  have hnodup : (h.gates.map Prod.fst).Nodup := by
    rw [hvectors]
    decide
  have hlimit : ∀ v : BitVec 8, 16 * v.toNat + 15 ≤ (prepareInterrupts h s).1.limit.toNat := by
    intro v
    have hv := v.isLt
    have hdef : (prepareInterrupts h s).1.limit.toNat = 0x0fff := rfl
    omega
  rw [table_prepareInterrupts]
  constructor
  · intro hloads
    refine ⟨fun v hv => ?_, fun v hv => ?_⟩
    · rw [← hvectors] at hv
      obtain ⟨gate, hgate, rfl⟩ := List.mem_map.mp hv
      have hist := (hloads.gates gate hgate).2.2.2
      rwa [foldl_installGate_of_mem h.gates hnodup _ hgate] at hist
    · have hpresent := hloads.others v (hlimit v) hv
      rwa [foldl_installGate_of_notMem h.gates _ hv] at hpresent
  · intro hclean
    refine ⟨fun gate hgate => ?_, fun v _ hv => ?_⟩
    · have hist := hclean.stack gate.1 (hvectors ▸ List.mem_map_of_mem hgate)
      rw [foldl_installGate_of_mem h.gates hnodup _ hgate]
      exact ⟨getOffset_setOffset (frameTable s gate.1) gate.2, rfl, rfl, hist⟩
    · rw [foldl_installGate_of_notMem h.gates _ hv]
      exact hclean.absent v hv

/-- A kernel whose frame 1 is free and holds ones. -/
def usedFrame : Kernel where
  mem a := if a = 0x8000 then 0x80 else 0xff
  cr3 := none
  requests := []
  alloc := ⟨⟨2, 0x8000⟩, 1, 0, 0, 0, true, 0⟩

/-- The gates are put into the ones, and have a stack index of 255. -/
theorem not_loadsGates_usedFrame : ¬ ∀ (h : Handlers) (s : Kernel),
    LoadsGates h (prepareInterrupts h s).1
      (table (prepareInterrupts h s).1 (prepareInterrupts h s).2.mem) := by
  intro hclaim
  have hgates := (hclaim ⟨0x200000, 0x200100, 0x200200, 0x200300, 0x200400⟩ usedFrame).gates
    (0xe, 0x200000) List.mem_cons_self
  rw [table_prepareInterrupts] at hgates
  exact absurd hgates.2.2.2 (by decide +kernel)

end EtaOs
