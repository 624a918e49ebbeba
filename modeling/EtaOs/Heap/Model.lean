import EtaOs.Library.ByteMemory

/-!
# The heap

`malloc`, `free` and the list of segment headers they keep, over the virtual memory the
heap is mapped into.  Mapping a page gives it the contents of whatever frame
`request_page` returned; the model takes these contents from an arbitrary sequence of
memories, so a theorem about the heap holds whatever the frames contained.

Page tables play no part here.  A pointer into the heap denotes a byte of virtual memory, pages of
the heap are never the pages of anything else, and extending the heap cannot fail.  That the kernel
makes this true is shown in `KernelHeap`, where the same functions run through the page tables and
refine these.

* `Heap`: virtual memory, the frames still to come, and the globals of `heap.cpp`.
* `HeapSegHeader`: the fields of a header, at the offsets the compiler gives them, and the
  three methods `split`, `combineForward`, `combineBackward`.
* `initHeap`, `extendHeap`, `malloc`, `free`.
-/

namespace EtaOs

open ByteMemory

/-- Virtual memory, the contents of the frames that `request_page` will return, how many
of them are in use, and the globals `heap_start`, `heap_end` and `last_header`. -/
structure Heap where
  mem : Mem
  fresh : ℕ → Mem
  taken : ℕ
  heapStart : Addr
  heapEnd : Addr
  lastHeader : Addr
deriving Inhabited

namespace Heap

/-- `global_ptm.map_mem(pos, global_allocator.request_page())`: the page of `pos` shows the
next frame. -/
def mapPage (pos : Addr) (h : Heap) : Heap :=
  { h with
    mem := fun x =>
      if x.extractLsb' 12 52 = pos.extractLsb' 12 52 then h.fresh h.taken x else h.mem x
    taken := h.taken + 1 }

end Heap

/-! ## Segment headers -/

namespace HeapSegHeader

def length (m : Mem) (seg : Addr) : BitVec 64 := load64 m seg

def next (m : Mem) (seg : Addr) : Addr := load64 m (seg + 8)

def last (m : Mem) (seg : Addr) : Addr := load64 m (seg + 16)

def free (m : Mem) (seg : Addr) : Bool := m (seg + 24) != 0

def setLength (m : Mem) (seg : Addr) (v : BitVec 64) : Mem := store64 m seg v

def setNext (m : Mem) (seg v : Addr) : Mem := store64 m (seg + 8) v

def setLast (m : Mem) (seg v : Addr) : Mem := store64 m (seg + 16) v

def setFree (m : Mem) (seg : Addr) (v : Bool) : Mem := store8 m (seg + 24) (if v then 1 else 0)

/-- `HeapSegHeader::split`.  The remaining length is signed. -/
def split (this : Addr) (splitLength : BitVec 64) (h : Heap) : Addr × Heap :=
  if splitLength < 0x10 then (0, h)
  else
    let splitSegLength := length h.mem this - splitLength - 32
    if splitSegLength.slt 0x10 then (0, h)
    else
      let newSplitHeader := this + splitLength + 32
      -- `next` is not checked: behind the last segment this is a store at address 16
      let m := setLast h.mem (next h.mem this) newSplitHeader
      let m := setNext m newSplitHeader (next m this)
      let m := setNext m this newSplitHeader
      let m := setLast m newSplitHeader this
      let m := setLength m newSplitHeader splitSegLength
      let m := setFree m newSplitHeader (free m this)
      let m := setLength m this splitLength
      (newSplitHeader,
        { h with
          mem := m
          lastHeader := if h.lastHeader = this then newSplitHeader else h.lastHeader })

/-- `HeapSegHeader::combine_forward`.  The link to the segment it swallows stays. -/
def combineForward (this : Addr) (h : Heap) : Heap :=
  if next h.mem this = 0 then h
  else if free h.mem (next h.mem this) = false then h
  else
    let lastHeader := if next h.mem this = h.lastHeader then this else h.lastHeader
    let m :=
      if next h.mem (next h.mem this) ≠ 0 then
        setLast h.mem (next h.mem (next h.mem this)) this
      else h.mem
    let m := setLength m this (length m this + length m (next m this) + 32)
    { h with mem := m, lastHeader := lastHeader }

/-- `HeapSegHeader::combine_backward`. -/
def combineBackward (this : Addr) (h : Heap) : Heap :=
  if last h.mem this ≠ 0 ∧ free h.mem (last h.mem this) = true then
    combineForward (last h.mem this) h
  else h

end HeapSegHeader

open HeapSegHeader hiding free

/-! ## The operations -/

/-- The first loop of `init_heap`: `n` pages are mapped from `pos` on. -/
def mapPages : ℕ → Addr → Heap → Heap
  | 0, _, h => h
  | n + 1, pos, h => mapPages n (pos + 4096) (h.mapPage pos)

/-- `init_heap`. -/
def initHeap (heapAddr pageCount : BitVec 64) (h : Heap) : Heap :=
  let h := mapPages pageCount.toNat heapAddr h
  let heapLength := pageCount * 4096
  let m := setLength h.mem heapAddr (heapLength - 32)
  let m := setNext m heapAddr 0
  let m := setLast m heapAddr 0
  let m := setFree m heapAddr true
  { h with
    mem := m
    heapStart := heapAddr
    heapEnd := heapAddr + heapLength
    lastHeader := heapAddr }

/-- `free`.  The header is the 32 bytes before the payload. -/
def free (addr : Addr) (h : Heap) : Heap :=
  let seg := addr - 32
  let h := { h with mem := setFree h.mem seg true }
  combineBackward seg (combineForward seg h)

/-- The loop of `extend_heap`, which moves `heap_end` over the pages it maps. -/
def growLoop : ℕ → Heap → Heap
  | 0, h => h
  | n + 1, h => growLoop n { h.mapPage h.heapEnd with heapEnd := h.heapEnd + 0x1000 }

/-- The length as `extend_heap` rounds it up to whole pages. -/
def pageRoundUp (length : BitVec 64) : BitVec 64 :=
  if length % 0x1000 ≠ 0 then length - length % 0x1000 + 0x1000 else length

/-- `extend_heap`. -/
def extendHeap (length : BitVec 64) (h : Heap) : Heap :=
  let length := pageRoundUp length
  let pageCount := length / 0x1000
  let newSegment := h.heapEnd
  let h := growLoop pageCount.toNat h
  let m := setFree h.mem newSegment true
  let m := setLast m newSegment h.lastHeader
  let m := setNext m h.lastHeader newSegment
  let m := setNext m newSegment 0
  let m := setLength m newSegment (length - 32)
  combineBackward newSegment { h with mem := m, lastHeader := newSegment }

/-- The size as `malloc` rounds it up to whole units of 16 bytes. -/
def roundUp (size : BitVec 64) : BitVec 64 :=
  if 0 < size % 0x10 then size - size % 0x10 + 0x10 else size

/-- The `while (true)` loop of `malloc` from `curSegment` on: a pointer it returns, or
none where it breaks.  The first argument bounds the number of iterations. -/
def scan : ℕ → BitVec 64 → Addr → Heap → Option (Option Addr × Heap)
  | 0, _, _, _ => none
  | fuel + 1, size, curSegment, h =>
      if HeapSegHeader.free h.mem curSegment = true ∧ size < length h.mem curSegment then
        let h := (split curSegment size h).2
        some (some (curSegment + 32), { h with mem := setFree h.mem curSegment false })
      else if HeapSegHeader.free h.mem curSegment = true ∧ length h.mem curSegment = size then
        -- `cur_segment->length == false;` compares and stores nothing
        some (some (curSegment + 32), h)
      else if next h.mem curSegment = 0 then some (none, h)
      else scan fuel size (next h.mem curSegment) h

/-- `malloc`, which calls itself after each extension of the heap.  The first argument
bounds the number of calls, and in each the number of iterations of the loop. -/
def malloc : ℕ → BitVec 64 → Heap → Option (Addr × Heap)
  | 0, _, _ => none
  | fuel + 1, size, h =>
      if roundUp size = 0 then some (0, h)
      else
        match scan (fuel + 1) (roundUp size) h.heapStart h with
        | none => none
        | some (some p, h) => some (p, h)
        | some (none, h) => malloc fuel (roundUp size) (extendHeap (roundUp size) h)

end EtaOs
