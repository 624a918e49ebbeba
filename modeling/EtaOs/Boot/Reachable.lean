import EtaOs.Boot.Coverage
import EtaOs.Library.Runs

/-!
# Frames stay reachable at their physical address

Once the PML4 is loaded, `map_mem` reaches the tables through the mapping it edits.  That
works because every frame that a request can return was mapped to itself, and stays so: a
mapping of the heap lies above `2 ^ 44`, and a mapping of an address to itself puts the
page where it was.

The argument is circular unless both halves are carried together.  The walk of a page is read off
tables that are written through pointers, which denote the tables only as long as their own pages
walk to themselves.  And a request, which finds its bitmap through the same tables, hands out a
fresh frame only while the bitmap is found.  One invariant says all of it, and one step of a run
keeps it.

* `KernelStep`: the mappings made after `prepare_mem`, one page of the heap or one address
  mapped to itself.
* `IdentityInv`: the tables satisfy their invariant, and the first frames walk to
  themselves.
* `FramesReachable`: the frames returned, the frames that may be returned, and the tables walk
  to themselves.
* `frames_stay_reachable`: they do so in every state of a run, when the bitmap is in the memory
  that was mapped to itself.
-/

namespace EtaOs

open ByteMemory IntLoop RadixTree Relation

/-- One iteration of the mapping loops of `init_heap` and `extend_heap`: a new frame is
mapped at `v`. -/
def mapHeapPage (ptm : PageTableManager) (s : Kernel) (v : BitVec 64) : Option Kernel :=
  (s.requestFrame globalAllocator).bind fun r => ptm.mapMem globalAllocator r.2 v r.1

/-- A mapping made after `prepare_mem`: a page of the heap, which starts at `2 ^ 44`, or an
address below `2 ^ 48` mapped to itself. -/
inductive KernelStep (ptm : PageTableManager) : Kernel → Kernel → Prop
  | heapPage (s s' : Kernel) (v : BitVec 64) (hv : 2 ^ 44 ≤ v.toNat) (hv' : v.toNat < 2 ^ 48)
      (h : mapHeapPage ptm s v = some s') : KernelStep ptm s s'
  | identity (s s' : Kernel) (a : BitVec 64) (ha : a.toNat < 2 ^ 48)
      (h : ptm.mapMem globalAllocator s a a = some s') : KernelStep ptm s s'

variable {memMap : List EfiMemoryDescriptor} {root : BitVec 64}

/-! ## Pointers into a page that walks to itself -/

/-- The bytes of a frame have its table indices. -/
theorem walk_of_mem_frame {m : Mem} {t x : BitVec 64} (ht : IsFrame t)
    (hx : (x - t).toNat < 4096) : walk m root x = walk m root t := by
  have hsame : SamePage x t := by
    obtain ⟨h1, h2⟩ := ht
    have hxt : x.toNat = t.toNat + (x - t).toNat := by bv_omega
    unfold SamePage
    apply BitVec.eq_of_toNat_eq
    rw [BitVec.extractLsb'_toNat, BitVec.extractLsb'_toNat, Nat.shiftRight_eq_div_pow,
      Nat.shiftRight_eq_div_pow]
    omega
  rw [walk, walk, pathOf_eq_iff.mpr hsame]

/-- The page offset of a byte of a frame. -/
theorem and_pageMask {t x : BitVec 64} (ht : IsFrame t) (hx : (x - t).toNat < 4096) :
    x &&& 0xfff = x - t := by
  obtain ⟨h1, h2⟩ := ht
  have hxt : x.toNat = t.toNat + (x - t).toNat := by bv_omega
  apply BitVec.eq_of_toNat_eq
  rw [BitVec.toNat_and, show (0xfff : BitVec 64).toNat = 2 ^ 12 - 1 by rfl,
    Nat.and_two_pow_sub_one_eq_mod]
  omega

/-- What a pointer into a page denotes that walks to a frame. -/
theorem phys_of_walk {s : Kernel} {t x f : BitVec 64} (hcr3 : s.cr3 = some root) (ht : IsFrame t)
    (hwalk : walk s.mem root t = some f) (hx : (x - t).toNat < 4096) :
    s.phys x = some (f + (x - t)) := by
  rw [Machine.phys, hcr3]
  show (walk s.mem root x).map _ = some (f + (x - t))
  rw [walk_of_mem_frame ht hx, hwalk, Option.map_some, and_pageMask ht hx]

/-- A pointer into a frame that walks to itself denotes its own address. -/
theorem direct_of_walk {s : Kernel} {t x : BitVec 64} (hcr3 : s.cr3 = some root) (ht : IsFrame t)
    (hwalk : walk s.mem root t = some t) (hx : (x - t).toNat < 4096) : s.Direct x := by
  rw [Machine.Direct, phys_of_walk hcr3 ht hwalk hx, add_sub_cancel]

/-! ## The invariant -/

/-- The first `totalFrames` pages walk to themselves in the tables that are loaded, and the
tables satisfy their invariant. -/
structure LoadedInv (memMap : List EfiMemoryDescriptor) (root : BitVec 64) (s : Kernel) :
    Prop where
  tables : TablesInv memMap root s
  cr3 : s.cr3 = some root
  identity : ∀ k < totalFrames memMap, walk s.mem root (pageAddress k) = some (pageAddress k)

/-- The bitmap lies in the memory that `prepare_mem` maps to itself. -/
def BitmapBelow (memMap : List EfiMemoryDescriptor) : Prop :=
  (initialBitmap memMap).buffer.toNat + (initialBitmap memMap).size.toNat ≤ (totalMem memMap).toNat

/-- The byte of a mark that a request scans is a byte of that memory. -/
theorem BitmapBelow.frameIndex_lt (h : BitmapBelow memMap) {index : BitVec 64}
    (hindex : index.toNat < (initialBitmap memMap).size.toNat) :
    frameIndex ((initialBitmap memMap).buffer + index / 8) < totalFrames memMap := by
  have hbelow : (initialBitmap memMap).buffer.toNat + (initialBitmap memMap).size.toNat ≤
      (totalMem memMap).toNat := h
  have htotal := totalMem_mod memMap
  have hlt := (totalMem memMap).isLt
  have hbyte : ((initialBitmap memMap).buffer + index / 8).toNat =
      (initialBitmap memMap).buffer.toNat + index.toNat / 8 := by
    rw [BitVec.toNat_add, BitVec.toNat_udiv, show (8 : BitVec 64).toNat = 8 from rfl]
    omega
  rw [frameIndex_eq, hbyte]
  unfold totalFrames
  omega

/-- **The bitmap is reached at its physical address** wherever the marks are, as no table holds a
part of it. -/
theorem TablesInv.bitmapDirect {s : Kernel} (hwf : WellFormedMap memMap) (hroot : IsFrame root)
    (h : TablesInv memMap root s) (hcr3 : s.cr3 = some root) (htotal : totalFrames memMap ≤ 2 ^ 36)
    (hdirect : ∀ index : BitVec 64, index.toNat < (initialBitmap memMap).size.toNat →
      s.Direct ((initialBitmap memMap).buffer + index / 8)) : BitmapDirect s := by
  have hbitmap := h.alloc.bitmap
  have hbytes := initialBitmap_size memMap
  have hlast := initialBitmap_last memMap
  refine bitmapDirect_of_size (by rw [hbitmap]; omega) fun index hindex => ?_
  have hlt : index.toNat < (initialBitmap memMap).size.toNat := by
    rw [← hbitmap]
    exact hindex
  have hmark : s.Direct (s.alloc.pageBitmap.buffer + index / 8) := by
    rw [hbitmap]
    exact hdirect index hlt
  refine ⟨hmark, fun v => hmark.congr rfl fun r hr t ht => ?_⟩
  obtain rfl := Option.some.inj (hr.symm.trans hcr3)
  let s' : Kernel := { s with mem := store8 s.mem (s.alloc.pageBitmap.buffer + index / 8) v }
  have hsame : ∀ x, (∀ k ≤ s.last, k < 2 ^ 34 → x ≠ s.alloc.pageBitmap.byteAddr k) →
      s'.mem x = s.mem x := by
    intro x hx
    refine if_neg ?_
    rw [← Bitmap.byteAddr_toNat]
    refine hx index.toNat ?_ (by omega)
    rw [h.alloc.last]
    omega
  exact h.sameOn_of_marks hwf hroot hsame t ht

/-- The bitmap lies in that memory too, so that a request behind paging finds it. -/
structure IdentityInv (memMap : List EfiMemoryDescriptor) (root : BitVec 64) (s : Kernel) :
    Prop extends LoadedInv memMap root s where
  bitmapBelow : BitmapBelow memMap

/-- The mappings that leave the first `2 ^ 44` bytes where they are. -/
def KeepsLow (v p : BitVec 64) : Prop :=
  v.toNat < 2 ^ 48 ∧ (v = p ∨ 2 ^ 44 ≤ v.toNat)

/-- The mappings that leave the pages below the end of memory where they are. -/
def KeepsMemory (memMap : List EfiMemoryDescriptor) (v p : BitVec 64) : Prop :=
  v.toNat < 2 ^ 48 ∧ (v = p ∨ 4096 * totalFrames memMap ≤ v.toNat)

theorem KeepsLow.keepsMemory (hsize : (totalMem memMap).toNat ≤ 2 ^ 44) {v p : BitVec 64}
    (h : KeepsLow v p) : KeepsMemory memMap v p := by
  have htotal : 4096 * totalFrames memMap ≤ 2 ^ 44 := by
    unfold totalFrames
    omega
  exact ⟨h.1, h.2.imp_right htotal.trans⟩

/-- At least one page makes the frames within reach frames of memory. -/
theorem reach_le_totalFrames (hpages : 1 ≤ totalFrames memMap) :
    reach memMap ≤ totalFrames memMap := by
  have hsize := initialBitmap_size memMap
  unfold reach
  omega

theorem reach_of_small (hsize : (totalMem memMap).toNat ≤ 2 ^ 48) :
    reach memMap = (initialBitmap memMap).size.toNat := by
  have htotal : totalFrames memMap ≤ 2 ^ 36 := by
    unfold totalFrames
    omega
  have hbytes := initialBitmap_size memMap
  exact Nat.min_eq_left (by omega)

/-- A frame is a page address. -/
theorem pageAddress_frameIndex {f : BitVec 64} (hf : IsFrame f) :
    pageAddress (frameIndex f) = f := by
  obtain ⟨h1, h2⟩ := hf
  apply BitVec.eq_of_toNat_eq
  rw [frameIndex_eq, pageAddress_toNat (by omega)]
  omega

theorem frameIndex_pageAddress {k : ℕ} (hk : k < 2 ^ 52) : frameIndex (pageAddress k) = k := by
  rw [frameIndex_eq, pageAddress_toNat hk]
  omega

/-- An address of memory lies in the page of its frame. -/
theorem mem_pageAddress {x : BitVec 64} (hx : frameIndex x < 2 ^ 36) :
    IsFrame (pageAddress (frameIndex x)) ∧ (x - pageAddress (frameIndex x)).toNat < 4096 := by
  have hpage := pageAddress_toNat (k := frameIndex x) (by omega)
  rw [frameIndex_eq] at hpage hx ⊢
  exact ⟨⟨by omega, by omega⟩, by bv_omega⟩

namespace LoadedInv

variable {s : Kernel}

/-- A frame of memory walks to itself. -/
theorem walk_frame (h : LoadedInv memMap root s) {f : BitVec 64} (hf : IsFrame f)
    (hlt : frameIndex f < totalFrames memMap) : walk s.mem root f = some f := by
  have hwalk := h.identity _ hlt
  rwa [pageAddress_frameIndex hf] at hwalk

/-- The tables walk to themselves. -/
theorem walk_table (hpages : 1 ≤ totalFrames memMap) (h : LoadedInv memMap root s)
    (hroot : IsFrame root) {t : BitVec 64}
    (ht : Table s.mem root t) : walk s.mem root t = some t :=
  h.walk_frame (isFrame_of_table hroot ht)
    (lt_of_lt_of_le (h.tables.tables t ht).1 (reach_le_totalFrames hpages))

/-- Two pages that walk to different frames differ in bits 12 to 47, so there are no more of
them than values of these bits. -/
theorem totalFrames_le (h : LoadedInv memMap root s) : totalFrames memMap ≤ 2 ^ 36 := by
  by_contra hgt
  have hzero := h.identity 0 (by omega)
  have hwrap := h.identity (2 ^ 36) (by omega)
  have hsame : SamePage (pageAddress (2 ^ 36)) (pageAddress 0) := by decide
  rw [walk, pathOf_eq_iff.mpr hsame, ← walk, hzero] at hwrap
  exact absurd (Option.some.inj hwrap) (by decide)

/-- **Pointers below the end of memory denote their own address.** -/
theorem direct_of_lt (h : LoadedInv memMap root s) {x : BitVec 64}
    (hx : frameIndex x < totalFrames memMap) : s.Direct x := by
  have htotal := h.totalFrames_le
  obtain ⟨hframe, hin⟩ := mem_pageAddress (x := x) (by omega)
  exact direct_of_walk h.cr3 hframe (h.identity _ hx) hin

/-- A change of the machine that leaves the walks below `totalFrames` alone. -/
theorem of_walk {s' : Kernel} (h : LoadedInv memMap root s) (htables : TablesInv memMap root s')
    (hcr3 : s'.cr3 = s.cr3)
    (hwalk : ∀ k < totalFrames memMap,
      walk s'.mem root (pageAddress k) = walk s.mem root (pageAddress k)) :
    LoadedInv memMap root s' :=
  ⟨htables, hcr3.trans h.cr3, fun k hk => (hwalk k hk).trans (h.identity k hk)⟩

section WellFormed

variable (hpages : 1 ≤ totalFrames memMap) (hwf : WellFormedMap memMap) (hroot : IsFrame root)

include hwf hroot

theorem takeFrame (h : LoadedInv memMap root s)
    (hOk : Granted memMap (nextRequest bootAllocator s)) :
    LoadedInv memMap root (s.takeFrame bootAllocator).2 :=
  h.of_walk (h.tables.takeFrame hwf hroot hOk) (Machine.takeFrame_cr3 bootAllocator s)
    fun k _ => walk_congr (h.tables.sameOn_requestPage hwf hroot hOk) (pageAddress k)

include hpages in
/-- **A granted frame is fresh**, and can be cleared at its physical address. -/
theorem fresh (h : LoadedInv memMap root s)
    (hOk : Granted memMap (nextRequest bootAllocator s)) :
    FreshFrame bootAllocator root s := by
  refine h.tables.fresh hwf hroot hOk fun x hx => ?_
  have hlt : frameIndex (requestPage s).1 < totalFrames memMap :=
    lt_of_lt_of_le hOk.2 (reach_le_totalFrames hpages)
  have hframe := (h.tables.alloc.request_frame hOk).1
  have htaken := h.takeFrame hwf hroot hOk
  exact direct_of_walk htaken.cr3 hframe (htaken.walk_frame hframe hlt) hx

/-- **Setting a page** of an allowed mapping leaves the first pages where they are. -/
theorem linkPage (hsize : (totalMem memMap).toNat ≤ 2 ^ 48) (h : LoadedInv memMap root s)
    {v p t e : BitVec 64} (hallowed : KeepsMemory memMap v p)
    (hlink : Link (edge s.mem) (edge (linkPage s t (tableIndex v 0) e).mem) 3 root
      [tableIndex v 3, tableIndex v 2, tableIndex v 1] t (tableIndex v 0) (frameOf p)) :
    LoadedInv memMap root (EtaOs.linkPage s t (tableIndex v 0) e) := by
  refine ⟨(h.tables.linkPage hwf hroot rfl hlink).1, h.cr3, fun k hk => ?_⟩
  have hk48 : 4096 * k < 2 ^ 48 := by
    unfold totalFrames at hk
    omega
  have hpage := pageAddress_toNat (k := k) (by omega)
  obtain ⟨hv48, hv⟩ := hallowed
  rw [walk_leaf hlink h.tables.separated]
  split
  next hsame =>
    -- the page is set again, to the frame it had
    have hvk := (samePage_iff_of_lt hv48 (by omega)).mp hsame
    obtain rfl : v = p := hv.resolve_right (by omega)
    congr 1
    apply BitVec.eq_of_toNat_eq
    rw [frameOf_toNat (by omega), hpage]
    omega
  next => exact h.identity k hk

end WellFormed

end LoadedInv

namespace IdentityInv

variable {s : Kernel}

/-- A change of the machine that leaves the walks below `totalFrames` alone. -/
theorem of_walk {s' : Kernel} (h : IdentityInv memMap root s) (htables : TablesInv memMap root s')
    (hcr3 : s'.cr3 = s.cr3)
    (hwalk : ∀ k < totalFrames memMap,
      walk s'.mem root (pageAddress k) = walk s.mem root (pageAddress k)) :
    IdentityInv memMap root s' :=
  ⟨h.toLoadedInv.of_walk htables hcr3 hwalk, h.bitmapBelow⟩

variable (hwf : WellFormedMap memMap) (hroot : IsFrame root)

include hwf hroot

/-- **The bitmap is reached at its physical address**, as it lies in that memory. -/
theorem bitmapDirect (h : IdentityInv memMap root s) : BitmapDirect s :=
  h.tables.bitmapDirect hwf hroot h.cr3 h.totalFrames_le fun _ hindex =>
    h.direct_of_lt (h.bitmapBelow.frameIndex_lt hindex)

/-- A request behind paging is the request before it. -/
theorem requestFrame_eq (h : IdentityInv memMap root s) :
    s.requestFrame globalAllocator = some (s.takeFrame bootAllocator) :=
  requestFrame_of_direct (h.bitmapDirect hwf hroot)

theorem nextRequest_eq (h : IdentityInv memMap root s) :
    nextRequest globalAllocator s = nextRequest bootAllocator s := by
  rw [nextRequest, nextRequest, (globalAllocator_of_direct (h.bitmapDirect hwf hroot)).1]

theorem takeFrame (h : IdentityInv memMap root s)
    (hOk : Granted memMap (nextRequest bootAllocator s)) :
    IdentityInv memMap root (s.takeFrame bootAllocator).2 :=
  ⟨h.toLoadedInv.takeFrame hwf hroot hOk, h.bitmapBelow⟩

end IdentityInv

/-- **Through the tables that are loaded `map_mem` keeps the pages of memory where they are**, as
long as its requests are those it would make before paging, and are granted, and its mappings are
allowed. -/
theorem mapInv_loaded (hwf : WellFormedMap memMap) (hpages : 1 ≤ totalFrames memMap)
    (hsize : (totalMem memMap).toNat ≤ 2 ^ 48) (hroot : IsFrame root) :
    MapInv bootAllocator root (LoadedInv memMap root) (Granted memMap)
      (KeepsMemory memMap) where
  frame := hroot
  cr3 := fun _ h _ hr => Option.some.inj (hr.symm.trans h.cr3)
  separated := fun _ h => h.tables.separated
  direct := fun _ h _ ht _ hx =>
    direct_of_walk h.cr3 (isFrame_of_table hroot ht) (h.walk_table hpages hroot ht) hx
  fresh := fun _ h hOk => h.fresh hpages hwf hroot hOk
  table := fun s _ _ _ _ _ _ h hOk _ _ hdepth hlink =>
    h.of_walk (h.tables.linkTable hwf hroot hOk hdepth hlink).1
      (Machine.takeFrame_cr3 bootAllocator s)
      fun k _ => walk_link hlink h.tables.separated hdepth (pageAddress k)
  page := fun _ _ _ _ _ h hallowed hlink => h.linkPage hwf hroot hsize hallowed hlink

/-- With the bitmap in that memory it stays there. -/
theorem mapInv_memory (hwf : WellFormedMap memMap) (hpages : 1 ≤ totalFrames memMap)
    (hsize : (totalMem memMap).toNat ≤ 2 ^ 48) (hroot : IsFrame root) :
    MapInv bootAllocator root (IdentityInv memMap root) (Granted memMap)
      (KeepsMemory memMap) := by
  have hM := mapInv_loaded hwf hpages hsize hroot
  exact {
    frame := hroot
    cr3 := fun s h => hM.cr3 s h.toLoadedInv
    separated := fun s h => hM.separated s h.toLoadedInv
    direct := fun s h => hM.direct s h.toLoadedInv
    fresh := fun s h => hM.fresh s h.toLoadedInv
    table := fun s v p pre t i e h hOk ha hpath hdepth hlink =>
      ⟨hM.table s v p pre t i e h.toLoadedInv hOk ha hpath hdepth hlink, h.bitmapBelow⟩
    page := fun s v p t e h ha hlink =>
      ⟨hM.page s v p t e h.toLoadedInv ha hlink, h.bitmapBelow⟩ }

/-- **Behind paging** the requests of `map_mem` are those it would make before. -/
theorem mapInv_paged {I : Kernel → Prop} {Ok : Request → Prop}
    {Allowed : BitVec 64 → BitVec 64 → Prop} (hwf : WellFormedMap memMap)
    (hM : MapInv bootAllocator root I Ok Allowed) (hid : ∀ s, I s → IdentityInv memMap root s) :
    MapInv globalAllocator root I Ok Allowed :=
  hM.congr fun s hI => globalAllocator_of_direct ((hid s hI).bitmapDirect hwf hM.frame)

/-- On a machine of at most `2 ^ 44` bytes the heap lies above memory. -/
theorem mapInv_identity (hwf : WellFormedMap memMap) (hpages : 1 ≤ totalFrames memMap)
    (hsize : (totalMem memMap).toNat ≤ 2 ^ 44) (hroot : IsFrame root) :
    MapInv globalAllocator root (IdentityInv memMap root) (Granted memMap) KeepsLow :=
  (mapInv_paged hwf (mapInv_memory hwf hpages (hsize.trans (by decide)) hroot)
    fun _ h => h).mono fun _ _ h => h.keepsMemory hsize

/-! ## Runs -/

theorem mapHeapPage_requests {ptm : PageTableManager} {s s' : Kernel} {v : BitVec 64}
    (h : mapHeapPage ptm s v = some s') :
    nextRequest globalAllocator s :: s.requests <:+ s'.requests := by
  obtain ⟨r, hr, hmap⟩ := Option.bind_eq_some_iff.mp h
  obtain rfl := Machine.requestFrame_eq_some hr
  have hsuffix := mapMem_suffix hmap
  rwa [Machine.takeFrame_requests] at hsuffix

/-- Where the bitmap is reached, the request for the page is the one before paging. -/
theorem IdentityInv.mapHeapPage_eq {s : Kernel} (hwf : WellFormedMap memMap) (hroot : IsFrame root)
    (h : IdentityInv memMap root s) (ptm : PageTableManager) (v : BitVec 64) :
    mapHeapPage ptm s v =
      ptm.mapMem globalAllocator (s.takeFrame bootAllocator).2 v (requestPage s).1 := by
  rw [mapHeapPage, h.requestFrame_eq hwf hroot, Option.bind_some]
  rfl

/-- The request for the page is granted when all those on the record are. -/
theorem IdentityInv.granted_mapHeapPage {s s' : Kernel} (hwf : WellFormedMap memMap)
    (hroot : IsFrame root) (h : IdentityInv memMap root s) {ptm : PageTableManager} {v : BitVec 64}
    (hrun : mapHeapPage ptm s v = some s') (hOk : ∀ r ∈ s'.requests, Granted memMap r) :
    Granted memMap (nextRequest bootAllocator s) := by
  rw [← h.nextRequest_eq hwf hroot]
  exact hOk _ ((mapHeapPage_requests hrun).subset List.mem_cons_self)

theorem KernelStep.suffix {ptm : PageTableManager} {s s' : Kernel} (h : KernelStep ptm s s') :
    s.requests <:+ s'.requests := by
  cases h with
  | heapPage v _ _ hrun => exact (List.suffix_cons _ _).trans (mapHeapPage_requests hrun)
  | identity a _ hrun => exact mapMem_suffix hrun

theorem Recorded.takeFrame {source : FrameSource PageFrameAllocator} (hsource : Counted source)
    {s : Kernel} (h : Recorded memMap s) : Recorded memMap (s.takeFrame source).2 := by
  refine ⟨(hsource.pageBitmap s).trans h.bitmap, (hsource.memSizeBytes s).trans h.memSize,
    fun r hr => ?_⟩
  rw [Machine.takeFrame_requests] at hr
  rcases List.mem_cons.mp hr with rfl | hr
  · exact hsource.frameIndex_lt h.bitmap
  · exact h.frames r hr

theorem Recorded.mapHeapPage {ptm : PageTableManager} {s s' : Kernel} {v : BitVec 64}
    (h : Recorded memMap s) (hrun : mapHeapPage ptm s v = some s') : Recorded memMap s' := by
  obtain ⟨r, hr, hmap⟩ := Option.bind_eq_some_iff.mp hrun
  obtain rfl := Machine.requestFrame_eq_some hr
  exact (h.takeFrame counted_globalAllocator).mapMem counted_globalAllocator hmap

theorem KernelStep.recorded {ptm : PageTableManager} {s s' : Kernel} (h : KernelStep ptm s s')
    (hs : Recorded memMap s) : Recorded memMap s' := by
  cases h with
  | heapPage v _ _ hrun => exact hs.mapHeapPage hrun
  | identity a _ hrun => exact hs.mapMem counted_globalAllocator hrun

/-- The invariant of the tables counts the requests on the record. -/
theorem TablesInv.recorded {s : Kernel} (h : TablesInv memMap root s) : Recorded memMap s where
  bitmap := h.alloc.bitmap
  memSize := h.alloc.memSize
  frames := fun r hr => lt_of_lt_of_le (h.given r hr).2.2 (Nat.min_le_left _ _)

/-- On a small machine a frame on the record that is not `NULL` was granted. -/
theorem Recorded.granted {s : Kernel} (h : Recorded memMap s)
    (hsize : (totalMem memMap).toNat ≤ 2 ^ 48) (hnull : ∀ r ∈ s.requests, r.frame ≠ 0) :
    ∀ r ∈ s.requests, Granted memMap r := by
  intro r hr
  refine ⟨hnull r hr, ?_⟩
  rw [reach_of_small hsize]
  exact h.frames r hr

/-- **A mapping keeps the invariant** when its requests are granted. -/
theorem KernelStep.identityInv {s s' : Kernel} (hwf : WellFormedMap memMap)
    (hpages : 1 ≤ totalFrames memMap) (hsize : (totalMem memMap).toNat ≤ 2 ^ 44)
    (hroot : IsFrame root) (hstep : KernelStep ⟨root⟩ s s') (h : IdentityInv memMap root s)
    (hOk : ∀ r ∈ s'.requests, Granted memMap r) : IdentityInv memMap root s' := by
  have hM := mapInv_identity hwf hpages hsize hroot
  cases hstep with
  | heapPage v hv hv' hrun =>
      have hnext := h.granted_mapHeapPage hwf hroot hrun hOk
      rw [h.mapHeapPage_eq hwf hroot] at hrun
      exact (hM.mapMem_spec (h.takeFrame hwf hroot hnext) ⟨hv', Or.inr hv⟩ hrun hOk).1
  | identity a ha hrun => exact (hM.mapMem_spec h ⟨ha, Or.inl rfl⟩ hrun hOk).1

/-- **A page above memory can be mapped** while frames are left: `map_mem` returns, the page walks
to the new frame, and the other pages walk as before. -/
theorem exists_mapHeapPage {S : Finset (List (BitVec 9))} {L : ℕ → Prop} [DecidablePred L] {n : ℕ}
    {s : Kernel} (hwf : WellFormedMap memMap) (hpages : 1 ≤ totalFrames memMap)
    (hsize : (totalMem memMap).toNat ≤ 2 ^ 48) (hroot : IsFrame root)
    (h : IdentityInv memMap root s) (hsupply : Supply memMap root S L (n + 1) s) {v : BitVec 64}
    (hv : 4096 * totalFrames memMap ≤ v.toNat) (hv' : v.toNat < 2 ^ 48) (hpath : PathsIn S v) :
    ∃ t, mapHeapPage ⟨root⟩ s v = some t ∧ IdentityInv memMap root t ∧
      Supply memMap root S L n t ∧ ∀ w, walk t.mem root w =
        if SamePage v w then some (requestPage s).1 else walk s.mem root w := by
  have hM := mapInv_paged hwf (mapInv_supply (S := S) (L := L) (n := n) hwf
    (mapInv_memory hwf hpages hsize hroot)) fun _ hI => hI.1
  have hgranted := hsupply.granted
  have hI := And.intro (h.takeFrame hwf hroot hgranted) (hsupply.takeFrame hwf hroot)
  have hallowed : KeepsMemory memMap v (requestPage s).1 ∧ PathsIn S v := ⟨⟨hv', Or.inr hv⟩, hpath⟩
  obtain ⟨t, hmap⟩ := hM.mapMem_total hI hallowed
  obtain ⟨⟨hid, hsupply'⟩, hwalk⟩ := hM.mapMem_spec hI hallowed hmap fun _ _ => trivial
  refine ⟨t, (h.mapHeapPage_eq hwf hroot _ v).trans hmap, hid, hsupply', fun w => ?_⟩
  have htaken : walk (s.takeFrame bootAllocator).2.mem root w = walk s.mem root w :=
    walk_congr (h.tables.sameOn_requestPage hwf hroot hgranted) w
  rw [hwalk, htaken, (h.tables.alloc.request_frame hgranted).1.frameOf]

/-- **A page of the heap can be mapped** while frames are left: the step is taken without
a fault, and the page walks to the new frame. -/
theorem exists_heapPage {S : Finset (List (BitVec 9))} {L : ℕ → Prop} [DecidablePred L] {n : ℕ}
    {s : Kernel} (hwf : WellFormedMap memMap) (hpages : 1 ≤ totalFrames memMap)
    (hsize : (totalMem memMap).toNat ≤ 2 ^ 44) (hroot : IsFrame root)
    (h : IdentityInv memMap root s) (hsupply : Supply memMap root S L (n + 1) s) {v : BitVec 64}
    (hv : 2 ^ 44 ≤ v.toNat) (hv' : v.toNat < 2 ^ 48) (hpath : PathsIn S v) :
    ∃ t, KernelStep ⟨root⟩ s t ∧ IdentityInv memMap root t ∧ Supply memMap root S L n t ∧
      nextRequest globalAllocator s ∈ t.requests ∧
      walk t.mem root v = some (requestPage s).1 := by
  have hlow : 4096 * totalFrames memMap ≤ v.toNat := by
    unfold totalFrames
    omega
  obtain ⟨t, hmap, hid, hsupply', hwalk⟩ := exists_mapHeapPage hwf hpages
    (hsize.trans (by decide)) hroot h hsupply hlow hv' hpath
  have hsame : SamePage v v := rfl
  exact ⟨t, KernelStep.heapPage s t v hv hv' hmap, hid, hsupply',
    (mapHeapPage_requests hmap).subset List.mem_cons_self, (hwalk v).trans (if_pos hsame)⟩

variable {m : Mem} {info : BootInfo}

/-- **The invariant when the PML4 is loaded.** -/
theorem loadedInv_of_inReach {s : Kernel} (hwf : WellFormedMap info.memMap)
    (hfb : FrameBufInReach info) (hsize : (totalMem info.memMap).toNat ≤ 2 ^ 48)
    (hframe : ∀ x, Visited info.baseAdress (frameBufEnd info) x → x.toNat < 2 ^ 48)
    (hrun : prepareMem (bootKernel m) info = some s)
    (hOk : ∀ r ∈ s.requests, Granted info.memMap r) :
    IsFrame (pml4 m info) ∧ LoadedInv info.memMap (pml4 m info) s := by
  obtain ⟨hroot, hcr3, htables, hwalk⟩ := prepareMem_tables hwf hfb hrun hOk
  refine ⟨hroot, htables, hcr3, fun k hk => (hwalk _ _).mpr ?_⟩
  unfold totalFrames at hk
  exact (mappedToItself_iff_of_lt hsize hframe (by omega)).mpr (Or.inl (by omega))

theorem identityInv_prepareMem {s : Kernel} (hwf : WellFormedMap info.memMap)
    (hbelow : BitmapBelow info.memMap) (hsize : (totalMem info.memMap).toNat ≤ 2 ^ 44)
    (hframe : ∀ x, Visited info.baseAdress (frameBufEnd info) x → x.toNat < 2 ^ 48)
    (hrun : prepareMem (bootKernel m) info = some s)
    (hOk : ∀ r ∈ s.requests, Granted info.memMap r) :
    IsFrame (pml4 m info) ∧ IdentityInv info.memMap (pml4 m info) s := by
  have hfb : FrameBufInReach info := by
    refine frameBufInReach_of_small ?_
    rw [initialBitmap_size]
    unfold totalFrames
    omega
  obtain ⟨hroot, hloaded⟩ := loadedInv_of_inReach hwf hfb (hsize.trans (by decide)) hframe hrun hOk
  exact ⟨hroot, hloaded, hbelow⟩

/-- The frames returned so far, the frames that the allocator can return with this bitmap, and the
tables walk to themselves in the tables that are loaded, and pointers to a table denote its
bytes. -/
structure FramesReachable (root : BitVec 64) (t : Kernel) : Prop where
  cr3 : t.cr3 = some root
  returned : ∀ r ∈ t.requests, walk t.mem root r.frame = some r.frame
  available : ∀ (u : Kernel) (r : BitVec 64 × Kernel), u.alloc.pageBitmap = t.alloc.pageBitmap →
    u.requestFrame globalAllocator = some r → walk t.mem root r.1 = some r.1
  tables : ∀ f, Table t.mem root f →
    walk t.mem root f = some f ∧ ∀ x, (x - f).toNat < 4096 → t.Direct x

/-- **Frames stay reachable.**  On a machine of at least one page and at most `2 ^ 44` bytes
whose bitmap lies in the memory that is mapped to itself, they are so in every state of a run of
mappings after `prepare_mem` in which no request has returned `NULL`. -/
theorem frames_stay_reachable {s t : Kernel} (hwf : WellFormedMap info.memMap)
    (hbelow : BitmapBelow info.memMap) (hpages : 1 ≤ totalFrames info.memMap)
    (hsize : (totalMem info.memMap).toNat ≤ 2 ^ 44)
    (hframe : ∀ x, Visited info.baseAdress (frameBufEnd info) x → x.toNat < 2 ^ 48)
    (hprepare : prepareMem (bootKernel m) info = some s)
    (hrun : ReflTransGen (KernelStep ⟨pml4 m info⟩) s t) (hnull : ∀ r ∈ t.requests, r.frame ≠ 0) :
    FramesReachable (pml4 m info) t := by
  have hrec₀ : Recorded info.memMap s := by
    obtain ⟨_, s₂, _, _, -, -, -, -, hrec, rfl⟩ := prepareMem_calls hprepare
    exact ⟨hrec.bitmap, hrec.memSize, hrec.frames⟩
  have hsize48 := hsize.trans (by decide : 2 ^ 44 ≤ 2 ^ 48)
  have hbytes : reach info.memMap = (initialBitmap info.memMap).size.toNat := reach_of_small hsize48
  have hreach := reach_le_totalFrames hpages
  -- along the run, as long as no request has returned `NULL`
  have hinv := Runs.invariant (P := fun u : Kernel => Recorded info.memMap u ∧
      ((∀ r ∈ u.requests, r.frame ≠ 0) →
        IsFrame (pml4 m info) ∧ IdentityInv info.memMap (pml4 m info) u))
    (fun u u' hstep hu => ⟨hstep.recorded hu.1, fun hne => by
      obtain ⟨hroot, hid⟩ := hu.2 fun r hr => hne r (hstep.suffix.subset hr)
      exact ⟨hroot, hstep.identityInv hwf hpages hsize hroot hid
        ((hstep.recorded hu.1).granted hsize48 hne)⟩⟩)
    hrun ⟨hrec₀, fun hne =>
      identityInv_prepareMem hwf hbelow hsize hframe hprepare (hrec₀.granted hsize48 hne)⟩
  obtain ⟨hrec, hid⟩ := hinv
  obtain ⟨hroot, hid⟩ := hid hnull
  refine ⟨hid.cr3, fun r hr => ?_, fun u r hu hrequest => ?_, fun f hf => ?_⟩
  · obtain ⟨hf, hOk⟩ := hid.tables.given r hr
    exact hid.walk_frame hf (lt_of_lt_of_le hOk.2 hreach)
  · rw [hrec.bitmap] at hu
    obtain rfl := Machine.requestFrame_eq_some hrequest
    obtain ⟨i, hi, heq⟩ := counted_globalAllocator.request_eq_mul hu
    have hlt := counted_globalAllocator.frameIndex_lt hu
    have htotal : totalFrames info.memMap ≤ 2 ^ 32 := by
      unfold totalFrames
      omega
    rw [Machine.takeFrame_fst]
    refine hid.walk_frame ?_ (by omega)
    rw [heq]
    constructor <;> bv_omega
  · have hwalk := hid.walk_table hpages hroot hf
    exact ⟨hwalk, fun x hx => direct_of_walk hid.cr3 (isFrame_of_table hroot hf) hwalk hx⟩

/-! ## The first page of the heap -/

theorem pathsIn_heapStart {v : BitVec 64} (hv : v.toNat / 2 ^ 21 = 2 ^ 23) :
    PathsIn lowPaths v := by
  have h3 : tableIndex v 3 = 32 := BitVec.eq_of_toNat_eq (by rw [tableIndex_toNat]; simp; omega)
  have h2 : tableIndex v 2 = 0 := BitVec.eq_of_toNat_eq (by rw [tableIndex_toNat]; simp; omega)
  have h1 : tableIndex v 1 = 0 := BitVec.eq_of_toNat_eq (by rw [tableIndex_toNat]; simp; omega)
  rw [pathsIn_iff, pathsOf, h3, h2, h1, Finset.insert_subset_iff, Finset.insert_subset_iff,
    Finset.singleton_subset_iff]
  exact ⟨by simp [lowPaths], by simp [lowPaths], by simp [lowPaths]⟩

/-- On 16 MiB the bitmap lies at the start of memory. -/
theorem bitmapBelow_sixteenMegabytes {base : BitVec 64} (hbase : base = 0 ∨ base = 0x100000) :
    BitmapBelow (sixteenMegabytes base).memMap := by
  rw [BitmapBelow, initialBitmap_sixteenMegabytes hbase, totalMem_sixteenMegabytes hbase]
  rcases hbase with rfl | rfl <;> decide

/-- The first page of the heap is mapped after paging, through tables that are made for it,
to a frame that walks to itself. -/
theorem frames_stay_reachable_heapStart :
    ∃ s t f, prepareMem (bootKernel fun _ => 0) (sixteenMegabytes 0) = some s ∧
      KernelStep ⟨pml4 (fun _ => 0) (sixteenMegabytes 0)⟩ s t ∧
      walk t.mem (pml4 (fun _ => 0) (sixteenMegabytes 0)) 0x100000000000 = some f ∧
      walk t.mem (pml4 (fun _ => 0) (sixteenMegabytes 0)) f = some f := by
  have hbase : (0 : BitVec 64) = 0 ∨ (0 : BitVec 64) = 0x100000 := Or.inl rfl
  have hwf := sixteenMegabytes_wellFormed hbase
  have hpages : 1 ≤ totalFrames (sixteenMegabytes 0).memMap := by
    rw [totalFrames_sixteenMegabytes hbase]
    decide
  have hsize := totalMem_sixteenMegabytes_le hbase
  obtain ⟨s, hprepare, hsupply⟩ := prepareMem_sixteenMegabytes (fun _ => 0) hbase
    (n := 1) (by omega)
  have hbelow := bitmapBelow_sixteenMegabytes hbase
  obtain ⟨hroot, hid⟩ := identityInv_prepareMem hwf hbelow hsize visited_sixteenMegabytes_lt
    hprepare fun r hr => (hsupply.tables.given r hr).2
  obtain ⟨t, hstep, hidt, -, hmem, hwalk⟩ := exists_heapPage hwf hpages hsize hroot hid hsupply
    (v := 0x100000000000) (by decide) (by decide) (pathsIn_heapStart (by decide))
  have hreachable :=
    frames_stay_reachable hwf hbelow hpages hsize visited_sixteenMegabytes_lt hprepare
      (ReflTransGen.single hstep) fun r hr => (hidt.tables.given r hr).2.1
  refine ⟨s, t, (requestPage s).1, hprepare, hstep, hwalk, ?_⟩
  rw [hid.nextRequest_eq hwf hroot] at hmem
  exact hreachable.returned (nextRequest bootAllocator s) hmem

end EtaOs
