import EtaOs.Library.IntLoop
import EtaOs.Allocator.Bitmap
import EtaOs.Machine

/-!
# The page frame allocator

`paging/page_frame_allocator.cpp` and `get_memory_size` of `memory.cpp`.  The state
holds the bitmap header and the file-scope variables; the bits themselves are bytes
of physical memory.

The eight functions on frames are two: taking a frame out of free memory (`lock_page`
and `reserve_page`) and giving one back (`free_page` and `unreserve_page`), each
booked to the counter of locked or of reserved memory, for one frame or for a range.
The range loops count with a signed `int` and multiply it by 4096 before it is
widened; `pageAt` is that address, with the product wrapped to 32 bits as the
unoptimised build computes it.

Two functions stand for the eight because the source writes the same body out each time, with
another counter.  They keep their eight names, each as its pair applied to an account, so that a
call in the source can be found here.  The scan of `request_page` is a recursion on the number of
indices left, and the loops over the memory map and over ranges are the `int` loops of
`Library/IntLoop.lean`.
-/

namespace EtaOs

open ByteMemory IntLoop

/-- `EFI_MEMORY_DESCRIPTOR`: the fields the kernel reads. -/
structure EfiMemoryDescriptor where
  type : BitVec 32
  physAddr : BitVec 64
  numPages : BitVec 64
  deriving DecidableEq

/-- `PageFrameAllocator` with the variables of its file, and the cached result of
`get_memory_size`. -/
structure PageFrameAllocator where
  pageBitmap : Bitmap
  pageBitmapIndex : BitVec 64
  freeMemory : BitVec 64
  reservedMemory : BitVec 64
  usedMemory : BitVec 64
  initialized : Bool
  memSizeBytes : BitVec 64
  deriving DecidableEq

/-- The kernel before paging: a machine with the page frame allocator. -/
abbrev Kernel := Machine PageFrameAllocator

/-- The counter a frame is booked to when it leaves free memory. -/
inductive Account where
  | used
  | reserved
  deriving DecidableEq

namespace PageFrameAllocator

/-- Book one frame from free memory to an account. -/
def take (a : PageFrameAllocator) : Account → PageFrameAllocator
  | .used => { a with freeMemory := a.freeMemory - 4096, usedMemory := a.usedMemory + 4096 }
  | .reserved =>
      { a with freeMemory := a.freeMemory - 4096, reservedMemory := a.reservedMemory + 4096 }

/-- Book one frame from an account back to free memory. -/
def give (a : PageFrameAllocator) : Account → PageFrameAllocator
  | .used => { a with freeMemory := a.freeMemory + 4096, usedMemory := a.usedMemory - 4096 }
  | .reserved =>
      { a with freeMemory := a.freeMemory + 4096, reservedMemory := a.reservedMemory - 4096 }

/-- Lower the search hint to an index below it. -/
def lowerHint (a : PageFrameAllocator) (index : BitVec 64) : PageFrameAllocator :=
  if a.pageBitmapIndex > index then { a with pageBitmapIndex := index } else a

end PageFrameAllocator

/-- A kernel at power-on: zeroed globals and any memory. -/
def bootKernel (m : Mem) : Kernel where
  mem := m
  cr3 := none
  requests := []
  alloc := ⟨⟨0, 0⟩, 0, 0, 0, 0, false, 0⟩

/-! ## One frame -/

/-- Take the frame at `addr` out of free memory. -/
def takePage (account : Account) (s : Kernel) (addr : BitVec 64) : Kernel :=
  let index := addr / 4096
  if s.alloc.pageBitmap.get s.mem index == true then s
  else
    let r := s.alloc.pageBitmap.set s.mem index true
    if r.1 then { s with mem := r.2, alloc := s.alloc.take account } else { s with mem := r.2 }

/-- Give the frame at `addr` back to free memory. -/
def givePage (account : Account) (s : Kernel) (addr : BitVec 64) : Kernel :=
  let index := addr / 4096
  if s.alloc.pageBitmap.get s.mem index == false then s
  else
    let r := s.alloc.pageBitmap.set s.mem index false
    if r.1 then { s with mem := r.2, alloc := (s.alloc.give account).lowerHint index }
    else { s with mem := r.2 }

/-- `PageFrameAllocator::lock_page`. -/
def lockPage : Kernel → BitVec 64 → Kernel := takePage .used

/-- `PageFrameAllocator::reserve_page`. -/
def reservePage : Kernel → BitVec 64 → Kernel := takePage .reserved

/-- `PageFrameAllocator::free_page`. -/
def freePage : Kernel → BitVec 64 → Kernel := givePage .used

/-- `PageFrameAllocator::unreserve_page`. -/
def unreservePage : Kernel → BitVec 64 → Kernel := givePage .reserved

/-! ## Ranges of frames -/

/-- The address `(uint64_t)addr + (i * 4096)`, the product taken in `int`. -/
def pageAt (addr : BitVec 64) (i : BitVec 32) : BitVec 64 := addr + (i * 4096).signExtend 64

/-- The loop of the four range functions. -/
def forPages (op : Kernel → BitVec 64 → Kernel) (s : Kernel) (addr pageCount : BitVec 64) :
    Kernel :=
  forInt pageCount (fun i s => op s (pageAt addr i)) s

/-- `PageFrameAllocator::lock_pages`. -/
def lockPages : Kernel → BitVec 64 → BitVec 64 → Kernel := forPages lockPage

/-- `PageFrameAllocator::reserve_pages`. -/
def reservePages : Kernel → BitVec 64 → BitVec 64 → Kernel := forPages reservePage

/-- `PageFrameAllocator::free_pages`. -/
def freePages : Kernel → BitVec 64 → BitVec 64 → Kernel := forPages freePage

/-- `PageFrameAllocator::unreserve_pages`. -/
def unreservePages : Kernel → BitVec 64 → BitVec 64 → Kernel := forPages unreservePage

/-! ## Requests -/

/-- The loop of `request_page`, bounded by the number of indices left to scan. -/
def requestLoop : ℕ → Kernel → BitVec 64 × Kernel
  | 0, s => (0, s)
  | fuel + 1, s =>
      let index := s.alloc.pageBitmapIndex
      if index < s.alloc.pageBitmap.size then
        if s.alloc.pageBitmap.get s.mem index == true then
          requestLoop fuel { s with alloc := { s.alloc with pageBitmapIndex := index + 1 } }
        else (index * 4096, lockPage s (index * 4096))
      else (0, s)

/-- `PageFrameAllocator::request_page`.  The scan visits each byte index at most once. -/
def requestPage (s : Kernel) : BitVec 64 × Kernel := requestLoop s.alloc.pageBitmap.size.toNat s

/-- `PageFrameAllocator::get_free_mem`. -/
def getFreeMem (s : Kernel) : BitVec 64 := s.alloc.freeMemory

/-- `PageFrameAllocator::get_used_mem`. -/
def getUsedMem (s : Kernel) : BitVec 64 := s.alloc.usedMemory

/-- `PageFrameAllocator::get_reserved_mem`. -/
def getReservedMem (s : Kernel) : BitVec 64 := s.alloc.reservedMemory

/-! ## Reading the memory map -/

/-- `for (int i = 0; i < mem_map_entries; i++)` over the descriptors of a memory map. -/
def forEntries {τ : Type} (memMap : List EfiMemoryDescriptor)
    (body : EfiMemoryDescriptor → τ → τ) (t : τ) : τ :=
  forInt (BitVec.ofNat 64 memMap.length)
    (fun i t => match memMap[i.toNat]? with
      | some desc => body desc t
      | none => t) t

/-- The scan for the largest conventional range: its address and its size in bytes. -/
def largestFreeMemSeg (memMap : List EfiMemoryDescriptor) : BitVec 64 × BitVec 64 :=
  forEntries memMap
    (fun desc r =>
      if desc.type = 7 then
        if desc.numPages * 4096 > r.2 then (desc.physAddr, desc.numPages * 4096) else r
      else r)
    (0, 0)

/-- `get_memory_size`: the sum of all descriptors, cached when it is not zero. -/
def getMemorySize (s : Kernel) (memMap : List EfiMemoryDescriptor) : BitVec 64 × Kernel :=
  if s.alloc.memSizeBytes > 0 then (s.alloc.memSizeBytes, s)
  else
    let total := forEntries memMap (fun desc n => n + desc.numPages * 4096) s.alloc.memSizeBytes
    (total, { s with alloc := { s.alloc with memSizeBytes := total } })

/-- `PageFrameAllocator::init_bitmap`. -/
def initBitmap (s : Kernel) (bitmapSize bufferAddr : BitVec 64) : Kernel :=
  let s := { s with alloc := { s.alloc with pageBitmap := ⟨bitmapSize, bufferAddr⟩ } }
  forInt bitmapSize
    (fun i s => { s with mem := store8 s.mem (s.alloc.pageBitmap.buffer + i.signExtend 64) 0 }) s

/-- `PageFrameAllocator::read_efi_memory_map`. -/
def readEfiMemoryMap (s : Kernel) (memMap : List EfiMemoryDescriptor) : Kernel :=
  if s.alloc.initialized then s
  else
    let s := { s with alloc := { s.alloc with initialized := true } }
    let largest := largestFreeMemSeg memMap
    let (memSize, s) := getMemorySize s memMap
    let s := { s with alloc := { s.alloc with freeMemory := memSize } }
    let bitmapSize := memSize / 4096 / 8 + 1
    let s := initBitmap s bitmapSize largest.1
    let s := reservePages s 0 (memSize / 4096 + 1)
    let s := forEntries memMap
      (fun desc s => if desc.type = 7 then unreservePages s desc.physAddr desc.numPages else s) s
    let s := reservePages s 0 0x100
    lockPages s s.alloc.pageBitmap.buffer (s.alloc.pageBitmap.size / 4096 + 1)

end EtaOs
