import EtaOs.Allocator.Requests

/-!
# `request_page` behind the page tables

`page_bitmap.buffer` is a pointer.  Until `mov cr3` it is a physical address, and the functions
of `Allocator/Model.lean` say what the allocator does with the bytes there.  Behind `mov cr3`
the same instructions go through the tables: `operator[]` reads the byte that the page of the
bitmap walks to, `set` writes there, and where the page is not present both end in a page fault.
The kernel never asks for anything of the allocator then but `request_page`, so that is the
function that is written out once more here, with the accessors and `lock_page` that it calls.

The two need not agree.  When the bitmap lies above the memory that `prepare_mem` maps to
itself, its pages may be absent, or a page of the heap may have been mapped over them.

## When they agree

`BitmapDirect` is the condition: the bytes that a scan can read are reached at their physical
addresses, and still are when a mark in them has been written.  The second half is not idle, as
the bytes of the bitmap might be entries of the tables through which they are reached.  Under it
`Paged.requestPage_eq` says that the paged function returns and does what the physical one does;
before paging it holds of every state.

`globalAllocator` is the paged function as the source of frames of the paging and heap code.
`globalAllocator_of_direct` replaces it by `bootAllocator` wherever the condition holds, and
`Paged.request_header` is what can be said of it without any condition: the header of the bitmap
stays, and a frame it returns is one of the first `size`.
-/

namespace EtaOs

open ByteMemory

namespace Paged

/-! ## The functions -/

/-- `Bitmap::operator[]`, through the pointer to the buffer. -/
def get (s : Kernel) (index : BitVec 64) : Option Bool :=
  let b := s.alloc.pageBitmap
  if index > b.size * 8 then some false
  else
    let byteIndex := index / 8
    (s.load8 (b.buffer + byteIndex)).map fun byte => decide (byte &&& Bitmap.bitIndexer index > 0)

/-- `Bitmap::set`, through the pointer to the buffer. -/
def set (s : Kernel) (index : BitVec 64) (value : Bool) : Option (Bool × Kernel) :=
  let b := s.alloc.pageBitmap
  if index > b.size * 8 then some (false, s)
  else
    let byteIndex := index / 8
    let addr := b.buffer + byteIndex
    (s.load8 addr).bind fun byte =>
      (s.store8 addr (byte &&& ~~~Bitmap.bitIndexer index)).bind fun s =>
        if value then
          (s.load8 addr).bind fun byte =>
            (s.store8 addr (byte ||| Bitmap.bitIndexer index)).map fun s => (true, s)
        else some (true, s)

/-- `PageFrameAllocator::lock_page`. -/
def lockPage (s : Kernel) (addr : BitVec 64) : Option Kernel :=
  let index := addr / 4096
  (get s index).bind fun locked =>
    if locked == true then some s
    else
      (set s index true).map fun r =>
        if r.1 then { r.2 with alloc := r.2.alloc.take .used } else r.2

/-- The loop of `request_page`, bounded by the number of indices left to scan. -/
def requestLoop : ℕ → Kernel → Option (BitVec 64 × Kernel)
  | 0, s => some (0, s)
  | fuel + 1, s =>
      let index := s.alloc.pageBitmapIndex
      if index < s.alloc.pageBitmap.size then
        (get s index).bind fun locked =>
          if locked == true then
            requestLoop fuel { s with alloc := { s.alloc with pageBitmapIndex := index + 1 } }
          else (lockPage s (index * 4096)).map fun s => (index * 4096, s)
      else some (0, s)

/-- `PageFrameAllocator::request_page`. -/
def requestPage (s : Kernel) : Option (BitVec 64 × Kernel) :=
  requestLoop s.alloc.pageBitmap.size.toNat s

end Paged

/-! ## Where the bitmap is reached at its physical address -/

/-- The byte of a mark is reached at its physical address, and still is after a store there. -/
structure MarkDirect (s : Kernel) (index : BitVec 64) : Prop where
  direct : s.Direct (s.alloc.pageBitmap.buffer + index / 8)
  stored : ∀ v, Machine.Direct
    { s with mem := store8 s.mem (s.alloc.pageBitmap.buffer + index / 8) v }
    (s.alloc.pageBitmap.buffer + index / 8)

/-- The marks that a request reads, and that of the frame it locks, are reached at their physical
addresses. -/
def BitmapDirect (s : Kernel) : Prop :=
  ∀ index : BitVec 64, index < s.alloc.pageBitmap.size →
    MarkDirect s index ∧ MarkDirect s (index * 4096 / 4096)

theorem bitmapDirect_of_cr3_none {s : Kernel} (h : s.cr3 = none) : BitmapDirect s := by
  have hmark : ∀ index, MarkDirect s index := fun _ =>
    ⟨Machine.direct_of_cr3_none h _, fun _ => Machine.direct_of_cr3_none (by exact h) _⟩
  exact fun index _ => ⟨hmark index, hmark _⟩

/-- In a bitmap of less than `2 ^ 50` bytes the frame that is locked is the one of the index. -/
theorem bitmapDirect_of_size {s : Kernel} (hsize : s.alloc.pageBitmap.size.toNat < 2 ^ 50)
    (h : ∀ index : BitVec 64, index < s.alloc.pageBitmap.size → MarkDirect s index) :
    BitmapDirect s := by
  intro index hindex
  have hlt : index.toNat < s.alloc.pageBitmap.size.toNat := hindex
  have hframe : index * 4096 / 4096 = index := BitVec.eq_of_toNat_eq (frameIndex_mul (by omega))
  rw [hframe]
  exact ⟨h index hindex, h index hindex⟩

theorem BitmapDirect.withHint {s : Kernel} (h : BitmapDirect s) (i : BitVec 64) :
    BitmapDirect (s.withHint i) := by
  intro index hindex
  obtain ⟨⟨hdirect, hstored⟩, hdirect', hstored'⟩ := h index hindex
  exact ⟨⟨hdirect, hstored⟩, hdirect', hstored'⟩

namespace Paged

variable {s : Kernel} {index addr : BitVec 64}

theorem get_eq (h : MarkDirect s index) :
    get s index = some (s.alloc.pageBitmap.get s.mem index) := by
  unfold get Bitmap.get
  dsimp only
  split
  · rfl
  · rw [Machine.load8, h.direct, Option.map_some, Option.map_some]

/-- The byte that the second store completes is the one the first has left. -/
theorem set_eq (h : MarkDirect s index) (value : Bool) :
    set s index value = some ((s.alloc.pageBitmap.set s.mem index value).1,
      { s with mem := (s.alloc.pageBitmap.set s.mem index value).2 }) := by
  unfold set Bitmap.set
  dsimp only
  split
  · rfl
  · rw [Machine.load8, h.direct, Option.map_some, Option.bind_some, h.direct.store8,
      Option.bind_some]
    have hstored := h.stored
      (s.mem (s.alloc.pageBitmap.buffer + index / 8) &&& ~~~Bitmap.bitIndexer index)
    cases value with
    | false => rfl
    | true =>
        rw [if_pos rfl, Machine.load8, hstored, Option.map_some, Option.bind_some, hstored.store8]
        rfl

theorem lockPage_eq (h : MarkDirect s (addr / 4096)) :
    lockPage s addr = some (EtaOs.lockPage s addr) := by
  unfold lockPage EtaOs.lockPage takePage
  dsimp only
  rw [get_eq h, Option.bind_some]
  by_cases hget : s.alloc.pageBitmap.get s.mem (addr / 4096) = true
  · rw [hget]
    rfl
  · rw [Bool.not_eq_true] at hget
    rw [hget, set_eq h, Option.map_some]
    rfl

theorem requestLoop_eq : ∀ {fuel : ℕ} {s : Kernel}, BitmapDirect s →
    requestLoop fuel s = some (EtaOs.requestLoop fuel s) := by
  intro fuel
  induction fuel with
  | zero =>
      intro s _
      rfl
  | succ fuel ih =>
      intro s h
      unfold requestLoop EtaOs.requestLoop
      dsimp only
      by_cases hindex : s.alloc.pageBitmapIndex < s.alloc.pageBitmap.size
      · obtain ⟨hmark, hlocked⟩ := h _ hindex
        rw [if_pos hindex, if_pos hindex, get_eq hmark, Option.bind_some]
        split
        · exact ih (h.withHint _)
        · rw [lockPage_eq hlocked, Option.map_some]
      · rw [if_neg hindex, if_neg hindex]

/-- **Where the bitmap is reached at its physical address** the request is the physical one. -/
theorem requestPage_eq (h : BitmapDirect s) : requestPage s = some (EtaOs.requestPage s) :=
  requestLoop_eq h

/-! ## What holds wherever the pointers lead -/

/-- What no function of the allocator changes: the paging register, the record, the header of the
bitmap and the cached sum. -/
structure SameHeader (s s' : Kernel) : Prop where
  cr3 : s'.cr3 = s.cr3
  requests : s'.requests = s.requests
  pageBitmap : s'.alloc.pageBitmap = s.alloc.pageBitmap
  memSizeBytes : s'.alloc.memSizeBytes = s.alloc.memSizeBytes

theorem SameHeader.trans {s₁ s₂ s₃ : Kernel} (h : SameHeader s₁ s₂) (h' : SameHeader s₂ s₃) :
    SameHeader s₁ s₃ where
  cr3 := h'.cr3.trans h.cr3
  requests := h'.requests.trans h.requests
  pageBitmap := h'.pageBitmap.trans h.pageBitmap
  memSizeBytes := h'.memSizeBytes.trans h.memSizeBytes

theorem sameHeader_store8 {s s' : Kernel} {a : BitVec 64} {v : BitVec 8}
    (h : s.store8 a v = some s') : SameHeader s s' := by
  rw [Machine.store8, Option.map_eq_some_iff] at h
  obtain ⟨p, -, rfl⟩ := h
  exact ⟨rfl, rfl, rfl, rfl⟩

theorem sameHeader_set {value : Bool} {r : Bool × Kernel} (h : set s index value = some r) :
    SameHeader s r.2 := by
  unfold set at h
  dsimp only at h
  split at h
  next =>
    obtain rfl := Option.some.inj h
    exact ⟨rfl, rfl, rfl, rfl⟩
  next =>
    rw [Option.bind_eq_some_iff] at h
    obtain ⟨byte, -, h⟩ := h
    rw [Option.bind_eq_some_iff] at h
    obtain ⟨s₁, hfirst, h⟩ := h
    split at h
    next =>
      rw [Option.bind_eq_some_iff] at h
      obtain ⟨byte', -, h⟩ := h
      rw [Option.map_eq_some_iff] at h
      obtain ⟨s₂, hsecond, rfl⟩ := h
      exact (sameHeader_store8 hfirst).trans (sameHeader_store8 hsecond)
    next =>
      obtain rfl := Option.some.inj h
      exact sameHeader_store8 hfirst

theorem sameHeader_lockPage {s' : Kernel} (h : lockPage s addr = some s') : SameHeader s s' := by
  unfold lockPage at h
  dsimp only at h
  rw [Option.bind_eq_some_iff] at h
  obtain ⟨locked, -, h⟩ := h
  split at h
  next =>
    obtain rfl := Option.some.inj h
    exact ⟨rfl, rfl, rfl, rfl⟩
  next =>
    rw [Option.map_eq_some_iff] at h
    obtain ⟨r, hset, rfl⟩ := h
    obtain ⟨hcr3, hrequests, hbitmap, hmemSize⟩ := sameHeader_set hset
    split
    · exact ⟨hcr3, hrequests, hbitmap, hmemSize⟩
    · exact ⟨hcr3, hrequests, hbitmap, hmemSize⟩

/-- A request that returns keeps the header, and returns one of the first `size` frames, where
`NULL` is frame `0`. -/
theorem requestLoop_header : ∀ {fuel : ℕ} {s : Kernel} {r : BitVec 64 × Kernel},
    requestLoop fuel s = some r → SameHeader s r.2 ∧
      (r.1 = 0 ∨ ∃ index : BitVec 64, index < s.alloc.pageBitmap.size ∧ r.1 = index * 4096) := by
  intro fuel
  induction fuel with
  | zero =>
      intro s r h
      obtain rfl := Option.some.inj h
      exact ⟨⟨rfl, rfl, rfl, rfl⟩, Or.inl rfl⟩
  | succ fuel ih =>
      intro s r h
      unfold requestLoop at h
      dsimp only at h
      split at h
      next hindex =>
        rw [Option.bind_eq_some_iff] at h
        obtain ⟨locked, -, h⟩ := h
        split at h
        next =>
          obtain ⟨⟨hcr3, hrequests, hbitmap, hmemSize⟩, hframe⟩ := ih h
          exact ⟨⟨hcr3, hrequests, hbitmap, hmemSize⟩, hframe⟩
        next =>
          rw [Option.map_eq_some_iff] at h
          obtain ⟨s', hlock, rfl⟩ := h
          exact ⟨sameHeader_lockPage hlock, Or.inr ⟨_, hindex, rfl⟩⟩
      next =>
        obtain rfl := Option.some.inj h
        exact ⟨⟨rfl, rfl, rfl, rfl⟩, Or.inl rfl⟩

/-- What is left of a request: the frame and the kernel it returns, or nothing new. -/
def request (s : Kernel) : BitVec 64 × Kernel := (requestPage s).getD (0, s)

theorem request_header (s : Kernel) : SameHeader s (request s).2 ∧
    ((request s).1 = 0 ∨
      ∃ index : BitVec 64, index < s.alloc.pageBitmap.size ∧ (request s).1 = index * 4096) := by
  unfold request
  cases hrun : requestPage s with
  | none => exact ⟨⟨rfl, rfl, rfl, rfl⟩, Or.inl rfl⟩
  | some r => exact requestLoop_header hrun

end Paged

/-! ## The allocator as a source of frames -/

/-- The page frame allocator as the source of frames of the paging and heap code. -/
def globalAllocator : FrameSource PageFrameAllocator where
  request := Paged.request
  faults := fun s => (Paged.requestPage s).isNone
  cr3 := fun s => (Paged.request_header s).1.cr3
  requests := fun s => (Paged.request_header s).1.requests
  noFault := by
    intro s h
    rw [Paged.requestPage_eq (bitmapDirect_of_cr3_none h)]
    rfl

/-- **Where the bitmap is reached at its physical address** the allocator is the physical one. -/
theorem globalAllocator_of_direct {s : Kernel} (h : BitmapDirect s) :
    globalAllocator.request s = bootAllocator.request s ∧ globalAllocator.faults s = false := by
  have hrun := Paged.requestPage_eq h
  constructor
  · show (Paged.requestPage s).getD (0, s) = requestPage s
    rw [hrun, Option.getD_some]
  · show (Paged.requestPage s).isNone = false
    rw [hrun, Option.isNone_some]

theorem takeFrame_of_direct {s : Kernel} (h : BitmapDirect s) :
    s.takeFrame globalAllocator = s.takeFrame bootAllocator := by
  rw [Machine.takeFrame, Machine.takeFrame, (globalAllocator_of_direct h).1]

/-- A source that keeps the header of the bitmap and returns one of the first `size` frames, where
`NULL` is frame `0`. -/
structure Counted (source : FrameSource PageFrameAllocator) : Prop where
  pageBitmap : ∀ s, (source.request s).2.alloc.pageBitmap = s.alloc.pageBitmap
  memSizeBytes : ∀ s, (source.request s).2.alloc.memSizeBytes = s.alloc.memSizeBytes
  frame : ∀ s, (source.request s).1 = 0 ∨
    ∃ index : BitVec 64, index < s.alloc.pageBitmap.size ∧ (source.request s).1 = index * 4096

theorem counted_globalAllocator : Counted globalAllocator where
  pageBitmap := fun s => (Paged.request_header s).1.pageBitmap
  memSizeBytes := fun s => (Paged.request_header s).1.memSizeBytes
  frame := fun s => (Paged.request_header s).2

theorem counted_bootAllocator : Counted bootAllocator where
  pageBitmap := fun s => (keeps_requestPage s).pageBitmap
  memSizeBytes := fun s => (keeps_requestPage s).memSizeBytes
  frame := by
    have hloop : ∀ (fuel : ℕ) (s : Kernel), (requestLoop fuel s).1 = 0 ∨
        ∃ index : BitVec 64, index < s.alloc.pageBitmap.size ∧
          (requestLoop fuel s).1 = index * 4096 := by
      intro fuel
      induction fuel with
      | zero => exact fun _ => Or.inl rfl
      | succ fuel ih =>
          intro s
          unfold requestLoop
          dsimp only
          split
          next hindex =>
            split
            · exact ih _
            · exact Or.inr ⟨_, hindex, rfl⟩
          next => exact Or.inl rfl
    exact fun s => hloop _ s

theorem requestFrame_of_direct {s : Kernel} (h : BitmapDirect s) :
    s.requestFrame globalAllocator = some (s.takeFrame bootAllocator) := by
  rw [Machine.requestFrame_of_returns (globalAllocator_of_direct h).2, takeFrame_of_direct h]

end EtaOs
