import EtaOs.Heap.Model
import EtaOs.Paging.MapMem

/-!
# The heap behind the page tables

`heap.cpp` on the machine: the heap maps its pages with `map_mem`, and reads and writes its
headers through pointers that go through the page tables it has just edited.  An access to a
page that is not present is a page fault, and the program does not return.

The state keeps the calls of `map_mem` that the heap makes, each with the machine it was made
on.  Like the record of requests, nothing reads it.

The operations are written a second time rather than derived from `Heap/Model.lean`, with the same
names and in the order of the source, because the order of loads, stores and mappings matters here:
a store can fault, and a mapping can change what a later pointer denotes.

* `KernelHeap`, `HeapM`: the machine with the globals of `heap.cpp`, and programs over it.
* `HeapM.mapNewPage`: `global_ptm.map_mem(pos, global_allocator.request_page())`.
* `HeapM.initHeap`, `HeapM.extendHeap`, `HeapM.malloc`, `KernelHeap.free`: the operations.
-/

namespace EtaOs

open ByteMemory

variable {σ : Type}

/-- A call of `map_mem`: the machine it is made on, and its arguments. -/
structure MapCall (σ : Type) where
  before : Machine σ
  virtMem : Addr
  physMem : BitVec 64

/-- The machine, the record of the calls of `map_mem`, and the globals of `heap.cpp`. -/
structure KernelHeap (σ : Type) where
  machine : Machine σ
  mapCalls : List (MapCall σ)
  heapStart : Addr
  heapEnd : Addr
  lastHeader : Addr

/-- Programs of the kernel's heap.  They do not return after a page fault. -/
abbrev HeapM (σ : Type) := StateT (KernelHeap σ) Option

namespace HeapM

/-! ## Accesses and calls -/

/-- An eight-byte load through a pointer. -/
def load64 (a : Addr) : HeapM σ (BitVec 64) := fun h =>
  (h.machine.load64 a).map fun v => (v, h)

/-- A one-byte load through a pointer. -/
def load8 (a : Addr) : HeapM σ (BitVec 8) := fun h =>
  (h.machine.load8 a).map fun v => (v, h)

/-- An eight-byte store through a pointer. -/
def store64 (a : Addr) (v : BitVec 64) : HeapM σ Unit := fun h =>
  (h.machine.store64 a v).map fun s => ((), { h with machine := s })

/-- A one-byte store through a pointer. -/
def store8 (a : Addr) (v : BitVec 8) : HeapM σ Unit := fun h =>
  (h.machine.store8 a v).map fun s => ((), { h with machine := s })

/-- A call of `request_page`. -/
def requestPage (source : FrameSource σ) : HeapM σ (BitVec 64) := fun h =>
  (h.machine.requestFrame source).map fun r => (r.1, { h with machine := r.2 })

/-- A call of `map_mem`, recorded. -/
def mapMem (source : FrameSource σ) (ptm : PageTableManager) (virtMem : Addr)
    (physMem : BitVec 64) : HeapM σ Unit := fun h =>
  (ptm.mapMem source h.machine virtMem physMem).map fun s =>
    ((), { h with machine := s, mapCalls := ⟨h.machine, virtMem, physMem⟩ :: h.mapCalls })

/-- `global_ptm.map_mem(pos, global_allocator.request_page())`. -/
def mapNewPage (source : FrameSource σ) (ptm : PageTableManager) (pos : Addr) : HeapM σ Unit := do
  let page ← requestPage source
  mapMem source ptm pos page

/-! ## The fields and methods of `HeapSegHeader` -/

def length (seg : Addr) : HeapM σ (BitVec 64) := load64 seg

def next (seg : Addr) : HeapM σ Addr := load64 (seg + 8)

def last (seg : Addr) : HeapM σ Addr := load64 (seg + 16)

def free (seg : Addr) : HeapM σ Bool := do
  let flag ← load8 (seg + 24)
  pure (flag != 0)

def setLength (seg : Addr) (v : BitVec 64) : HeapM σ Unit := store64 seg v

def setNext (seg v : Addr) : HeapM σ Unit := store64 (seg + 8) v

def setLast (seg v : Addr) : HeapM σ Unit := store64 (seg + 16) v

def setFree (seg : Addr) (v : Bool) : HeapM σ Unit := store8 (seg + 24) (if v then 1 else 0)

/-- `HeapSegHeader::split`. -/
def split (this : Addr) (splitLength : BitVec 64) : HeapM σ Addr :=
  if splitLength < 0x10 then pure 0
  else do
    let splitSegLength := (← length this) - splitLength - 32
    if splitSegLength.slt 0x10 then pure 0
    else do
      let newSplitHeader := this + splitLength + 32
      setLast (← next this) newSplitHeader
      setNext newSplitHeader (← next this)
      setNext this newSplitHeader
      setLast newSplitHeader this
      setLength newSplitHeader splitSegLength
      setFree newSplitHeader (← free this)
      setLength this splitLength
      modify fun h =>
        { h with lastHeader := if h.lastHeader = this then newSplitHeader else h.lastHeader }
      pure newSplitHeader

/-- `HeapSegHeader::combine_forward`. -/
def combineForward (this : Addr) : HeapM σ Unit := do
  if (← next this) = 0 then pure ()
  else do
    if (← free (← next this)) = false then pure ()
    else do
      let behind ← next this
      modify fun h =>
        { h with lastHeader := if behind = h.lastHeader then this else h.lastHeader }
      let behindNext ← next (← next this)
      (if behindNext ≠ 0 then do setLast (← next (← next this)) this else pure ())
      setLength this ((← length this) + (← length (← next this)) + 32)

/-- `HeapSegHeader::combine_backward`. -/
def combineBackward (this : Addr) : HeapM σ Unit := do
  if (← last this) = 0 then pure ()
  else do
    if (← free (← last this)) then combineForward (← last this)
    else pure ()

/-! ## The operations -/

/-- `init_heap` behind its loop: the list is one free segment. -/
def startList (heapAddr heapLength : BitVec 64) : HeapM σ Unit := do
  modify fun h => { h with heapStart := heapAddr, heapEnd := heapAddr + heapLength }
  setLength heapAddr (heapLength - 32)
  setNext heapAddr 0
  setLast heapAddr 0
  setFree heapAddr true
  modify fun h => { h with lastHeader := heapAddr }

/-- `extend_heap` behind its loop: a free segment follows the last one. -/
def linkLast (newSegment : Addr) (length : BitVec 64) : HeapM σ Unit := do
  setFree newSegment true
  setLast newSegment (← get).lastHeader
  setNext (← get).lastHeader newSegment
  modify fun h => { h with lastHeader := newSegment }
  setNext newSegment 0
  setLength newSegment (length - 32)
  combineBackward newSegment

section Operations

variable (source : FrameSource σ) (ptm : PageTableManager)

/-- The loop of `init_heap`: `n` pages are mapped from `pos` on. -/
def mapPages : ℕ → Addr → HeapM σ Unit
  | 0, _ => pure ()
  | n + 1, pos => do
      mapNewPage source ptm pos
      mapPages n (pos + 4096)

/-- `init_heap`. -/
def initHeap (heapAddr pageCount : BitVec 64) : HeapM σ Unit := do
  mapPages source ptm pageCount.toNat heapAddr
  startList heapAddr (pageCount * 4096)

/-- The loop of `extend_heap`, which moves `heap_end` over the pages it maps. -/
def growLoop : ℕ → HeapM σ Unit
  | 0 => pure ()
  | n + 1 => do
      mapNewPage source ptm (← get).heapEnd
      modify fun h => { h with heapEnd := h.heapEnd + 0x1000 }
      growLoop n

/-- `extend_heap`. -/
def extendHeap (length : BitVec 64) : HeapM σ Unit := do
  let length := pageRoundUp length
  let pageCount := length / 0x1000
  let newSegment := (← get).heapEnd
  growLoop source ptm pageCount.toNat
  linkLast newSegment length

/-- The body of the loop of `malloc`: a segment that is free and long enough is taken. -/
def takeSegment (size : BitVec 64) (curSegment : Addr) : HeapM σ (Option Addr) := do
  if (← free curSegment) then do
    if size < (← length curSegment) then do
      let _ ← split curSegment size
      setFree curSegment false
      pure (some (curSegment + 32))
    else do
      -- `cur_segment->length == false;` compares and stores nothing
      if (← length curSegment) = size then pure (some (curSegment + 32)) else pure none
  else pure none

/-- The `while (true)` loop of `malloc` from `curSegment` on: a pointer it returns, or none
where it breaks.  The first argument bounds the number of iterations. -/
def scan : ℕ → BitVec 64 → Addr → HeapM σ (Option Addr)
  | 0, _, _ => fun _ => none
  | fuel + 1, size, curSegment => do
      match ← takeSegment size curSegment with
      | some p => pure (some p)
      | none =>
          if (← next curSegment) = 0 then pure none
          else scan fuel size (← next curSegment)

/-- `malloc`, which calls itself after each extension of the heap.  The first argument
bounds the number of calls, and in each the number of iterations of the loop. -/
def malloc : ℕ → BitVec 64 → HeapM σ Addr
  | 0, _ => fun _ => none
  | fuel + 1, size =>
      if roundUp size = 0 then pure 0
      else do
        match ← scan (fuel + 1) (roundUp size) (← get).heapStart with
        | some p => pure p
        | none => do
            extendHeap source ptm (roundUp size)
            malloc fuel (roundUp size)

end Operations

end HeapM

/-- `free`. -/
def KernelHeap.free (addr : Addr) : HeapM σ Unit := do
  let seg := addr - 32
  HeapM.setFree seg true
  HeapM.combineForward seg
  HeapM.combineBackward seg

end EtaOs
