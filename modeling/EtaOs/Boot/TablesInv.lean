import EtaOs.Boot.PrepareMem

/-!
# The allocator and the page tables together

The tables are frames that the allocator has handed out, and the bitmap lies in frames
that it never hands out.  So a request does not touch a table, writing a table does not
touch the bitmap, and a frame that a request returns is not a table yet.

The loop that locks the bitmap reaches its first `2 ^ 31` bytes, the marks of the first
`2 ^ 34` frames.  The argument is made for these frames, `reach`; on a machine with more,
requests still return frames among them as long as some are left.

* `AllocInv`: the bitmap is where `read_efi_memory_map` put it, and the frames that hold
  it are marked.
* `Granted`: a request that returned a frame within reach.
* `TablesInv`: the tables are marked frames within reach, and none holds a part of the
  bitmap.
* `mapInv_boot`: before paging, `map_mem` with the kernel's allocator keeps `TablesInv` as
  long as its requests are granted.
-/

namespace EtaOs

open ByteMemory IntLoop RadixTree

/-- The frames whose marks lie in the locked part of the bitmap, of those a request scans. -/
def reach (memMap : List EfiMemoryDescriptor) : ℕ :=
  min (initialBitmap memMap).size.toNat (2 ^ 34)

/-- The request returned a frame within reach. -/
def Granted (memMap : List EfiMemoryDescriptor) (r : Request) : Prop :=
  r.frame ≠ 0 ∧ frameIndex r.frame < reach memMap

/-- The frames of the bitmap are marked, and so is frame `0`. -/
structure AllocInv (memMap : List EfiMemoryDescriptor) (s : Kernel) : Prop where
  hint : HintInv s
  hint_le : s.alloc.pageBitmapIndex.toNat ≤ reach memMap
  bitmap : s.alloc.pageBitmap = initialBitmap memMap
  memSize : s.alloc.memSizeBytes = totalMem memMap
  zero : s.marked 0 = true
  locked : ∀ k < reach memMap, BitmapFrame memMap k → s.marked k = true

variable {memMap : List EfiMemoryDescriptor} {root : BitVec 64}

/-- A mark depends on its byte of the bitmap only. -/
theorem marked_congr {s s' : Kernel} (halloc : s'.alloc = s.alloc) {k : ℕ}
    (hbyte : s'.mem (s.alloc.pageBitmap.byteAddr k) = s.mem (s.alloc.pageBitmap.byteAddr k)) :
    s'.marked k = s.marked k := by
  unfold Machine.marked Bitmap.marked
  rw [halloc, hbyte]

namespace AllocInv

theorem init (m : Mem) (memMap : List EfiMemoryDescriptor) :
    AllocInv memMap (readEfiMemoryMap (bootKernel m) memMap) := by
  have hbitmap := readEfiMemoryMap_pageBitmap m memMap
  have hlast := initialBitmap_last memMap
  refine ⟨hintInv_readEfiMemoryMap, ?_, hbitmap, ?_, ?_, ?_⟩
  · rw [readEfiMemoryMap_pageBitmapIndex]
    exact Nat.zero_le _
  · rw [(keeps_readEfiMemoryMap m memMap).memSizeBytes, afterInitBitmap_alloc]
  · exact (marked_readEfiMemoryMap (Nat.zero_le _)).mpr (Or.inr (Or.inl (by decide)))
  · intro k hk hbit
    unfold reach at hk
    exact (marked_readEfiMemoryMap (by omega)).mpr (Or.inr (Or.inr hbit))

theorem last {s : Kernel} (h : AllocInv memMap s) : s.last = (initialBitmap memMap).last := by
  unfold Machine.last
  rw [h.bitmap]

/-- Frames within reach pass the bound check of the bitmap. -/
theorem le_last {s : Kernel} (h : AllocInv memMap s) {k : ℕ} (hk : k < reach memMap) :
    k ≤ s.last := by
  have hlast := initialBitmap_last memMap
  rw [h.last]
  unfold reach at hk
  omega

/-- An operation that only adds marks keeps the invariant. -/
theorem of_keeps {s s' : Kernel} (h : AllocInv memMap s) (hhint : HintInv s') (hkeeps : Keeps s s')
    (hindex : s'.alloc.pageBitmapIndex.toNat ≤ reach memMap)
    (hmark : ∀ k ≤ s.last, s.marked k = true → s'.marked k = true) : AllocInv memMap s' where
  hint := hhint
  hint_le := hindex
  bitmap := hkeeps.pageBitmap.trans h.bitmap
  memSize := hkeeps.memSizeBytes.trans h.memSize
  zero := hmark 0 (Nat.zero_le _) h.zero
  locked := fun k hk hbit => hmark k (h.le_last hk) (h.locked k hk hbit)

theorem requestPage {s : Kernel} (h : AllocInv memMap s)
    (hOk : Granted memMap (nextRequest bootAllocator s)) :
    AllocInv memMap (requestPage s).2 := by
  refine h.of_keeps h.hint.requestPage (keeps_requestPage s) ?_
    fun _ hk hm => (marked_requestPage h.hint hk).mpr (Or.inl hm)
  rw [requestPage_pageBitmapIndex h.hint hOk.1]
  exact Nat.le_of_lt hOk.2

theorem lockPages {s : Kernel} (h : AllocInv memMap s) (addr pageCount : BitVec 64) :
    AllocInv memMap (lockPages s addr pageCount) := by
  refine h.of_keeps (h.hint.forPages (fun _ a ht => ht.takePage .used a) addr pageCount)
    (keeps_forPages (keeps_takePage .used) s addr pageCount) ?_
    fun _ hk hm => (marked_forPages_takePage hk).mpr (Or.inl hm)
  refine forInt_induction (P := fun t : Kernel => t.alloc.pageBitmapIndex.toNat ≤ reach memMap) ?_
    h.hint_le
  intro i t _ ht
  refine (congrArg BitVec.toNat (takePage_pageBitmapIndex .used t (pageAt addr i))).le.trans ht

/-- Writing outside the marks within reach keeps the invariant. -/
theorem congr {s s' : Kernel} (h : AllocInv memMap s) (halloc : s'.alloc = s.alloc)
    (hmark : ∀ k < reach memMap, s'.marked k = s.marked k) : AllocInv memMap s' := by
  have hle := h.hint_le
  refine ⟨⟨?_, ?_, ?_⟩, ?_, ?_, ?_, ?_, ?_⟩
  · rw [halloc]
    exact h.hint.size_lt
  · rw [halloc]
    exact h.hint.hint_le
  · intro k hk
    rw [halloc] at hk
    rw [hmark k (by omega)]
    exact h.hint.below k hk
  · rw [halloc]
    exact hle
  · rw [halloc]
    exact h.bitmap
  · rw [halloc]
    exact h.memSize
  · have hpos : 0 < reach memMap := by
      have hsize := initialBitmap_size memMap
      unfold reach
      omega
    rw [hmark 0 hpos]
    exact h.zero
  · intro k hk hbit
    rw [hmark k hk]
    exact h.locked k hk hbit

/-- What a granted request gives. -/
theorem request_frame {s : Kernel} (h : AllocInv memMap s)
    (hOk : Granted memMap (nextRequest bootAllocator s)) :
    IsFrame (EtaOs.requestPage s).1 ∧ s.marked (frameIndex (EtaOs.requestPage s).1) = false ∧
      (EtaOs.requestPage s).2.marked (frameIndex (EtaOs.requestPage s).1) = true ∧
      ¬ BitmapFrame memMap (frameIndex (EtaOs.requestPage s).1) := by
  obtain ⟨i, -, hi, hfree, heq⟩ := requestPage_ne_zero h.hint hOk.1
  have hsize := h.hint.size_lt
  have hframe : frameIndex (EtaOs.requestPage s).1 = i.toNat := by
    rw [heq]
    exact frameIndex_mul (by omega)
  have hlt : i.toNat < reach memMap := hframe ▸ hOk.2
  have hlt34 : i.toNat < 2 ^ 34 := lt_of_lt_of_le hlt (Nat.min_le_right _ _)
  rw [hframe]
  refine ⟨?_, hfree, ?_, ?_⟩
  · rw [heq]
    constructor <;> bv_omega
  · exact (marked_requestPage h.hint (h.le_last hlt)).mpr
      (Or.inr ⟨⟨i.toNat, hi, hfree⟩, hframe⟩)
  · intro hbit
    rw [h.locked i.toNat hlt hbit] at hfree
    exact Bool.noConfusion hfree

end AllocInv

/-! ## Frames and the bitmap -/

/-- No mark of the first `2 ^ 34` frames is stored in a frame that is not locked for the
bitmap. -/
theorem byteAddr_notMem (hwf : WellFormedMap memMap) {f : BitVec 64} (hf : IsFrame f)
    (hnot : ¬ BitmapFrame memMap (frameIndex f)) {k : ℕ} (hk : k ≤ (initialBitmap memMap).last)
    (hlt : k < 2 ^ 34) : ¬ ((initialBitmap memMap).byteAddr k - f).toNat < 4096 := by
  intro hin
  refine hnot ?_
  have hlast := initialBitmap_last memMap
  have hframe : frameIndex f = frameIndex ((initialBitmap memMap).byteAddr k) := by
    obtain ⟨h1, h2⟩ := hf
    rw [frameIndex_eq, frameIndex_eq]
    bv_omega
  rw [hframe]
  exact bitmapFrame_of_lt hwf (j := k / 8) (by omega) (by omega)

/-! ## The tables -/

/-- The tables are marked frames within reach apart from the bitmap, distinct paths lead to
distinct tables, and the requests made so far were granted. -/
structure TablesInv (memMap : List EfiMemoryDescriptor) (root : BitVec 64) (s : Kernel) :
    Prop where
  alloc : AllocInv memMap s
  separated : Separated (edge s.mem) 3 root
  tables : ∀ t, Table s.mem root t → frameIndex t < reach memMap ∧
    s.marked (frameIndex t) = true ∧ ¬ BitmapFrame memMap (frameIndex t)
  given : ∀ r ∈ s.requests, IsFrame r.frame ∧ Granted memMap r

namespace TablesInv

/-- Loading another PML4 does not matter to the tables in memory. -/
theorem congr_cr3 {s : Kernel} (h : TablesInv memMap root s) (cr3 : Option (BitVec 64)) :
    TablesInv memMap root { s with cr3 := cr3 } :=
  ⟨h.alloc.congr rfl fun _ _ => rfl, h.separated, h.tables, h.given⟩

section WellFormed

variable (hwf : WellFormedMap memMap)

include hwf

/-- Writing in frames that are not locked for the bitmap keeps the allocator's part. -/
theorem alloc_of_write {s : Kernel} (s' : Kernel) (h : AllocInv memMap s) {f t : BitVec 64}
    (hf : IsFrame f) (ht : IsFrame t) (hfnot : ¬ BitmapFrame memMap (frameIndex f))
    (htnot : ¬ BitmapFrame memMap (frameIndex t)) (halloc : s'.alloc = s.alloc)
    (hmem : ∀ x, ¬ (x - f).toNat < 4096 → ¬ (x - t).toNat < 4096 → s'.mem x = s.mem x) :
    AllocInv memMap s' ∧ ∀ k < reach memMap, s'.marked k = s.marked k := by
  have hmark : ∀ k < reach memMap, s'.marked k = s.marked k := by
    intro k hk
    have hlast : k ≤ (initialBitmap memMap).last := h.last ▸ h.le_last hk
    have hlt : k < 2 ^ 34 := lt_of_lt_of_le hk (Nat.min_le_right _ _)
    refine marked_congr halloc ?_
    rw [h.bitmap]
    exact hmem _ (byteAddr_notMem hwf hf hfnot hlast hlt) (byteAddr_notMem hwf ht htnot hlast hlt)
  exact ⟨h.congr halloc hmark, hmark⟩

variable (hroot : IsFrame root)

include hroot

/-- The bytes of the tables stay when the marks of the first `2 ^ 34` frames are written. -/
theorem sameOn_of_marks {s s' : Kernel} (h : TablesInv memMap root s)
    (hmem : ∀ x, (∀ k ≤ s.last, k < 2 ^ 34 → x ≠ s.alloc.pageBitmap.byteAddr k) →
      s'.mem x = s.mem x)
    (t : BitVec 64) (ht : Table s.mem root t) : SameOn t 4096 s.mem s'.mem := by
  intro x hx
  refine hmem x fun k hk hlt => ?_
  rintro rfl
  rw [h.alloc.bitmap] at hx
  rw [h.alloc.last] at hk
  exact byteAddr_notMem hwf (isFrame_of_table hroot ht) (h.tables t ht).2.2 hk hlt hx

theorem sameOn_requestPage {s : Kernel} (h : TablesInv memMap root s)
    (hOk : Granted memMap (nextRequest bootAllocator s)) (t : BitVec 64)
    (ht : Table s.mem root t) : SameOn t 4096 s.mem (requestPage s).2.mem := by
  refine h.sameOn_of_marks hwf hroot (fun x hx => ?_) t ht
  exact requestPage_mem h.alloc.hint
    (hx _ (h.alloc.le_last hOk.2) (lt_of_lt_of_le hOk.2 (Nat.min_le_right _ _)))

theorem sameOn_lockPages {s : Kernel} (h : TablesInv memMap root s) {addr pageCount : BitVec 64}
    (hlock : ∀ k ≤ (initialBitmap memMap).last, LoopFrames addr pageCount k → k < 2 ^ 34)
    (t : BitVec 64) (ht : Table s.mem root t) :
    SameOn t 4096 s.mem (EtaOs.lockPages s addr pageCount).mem := by
  refine h.sameOn_of_marks hwf hroot (fun x hx => ?_) t ht
  exact forPages_takePage_mem fun k hk hloop => hx k hk (hlock k (h.alloc.last ▸ hk) hloop)

omit hwf hroot in
/-- What keeps the allocator's part and the marks, and leaves the tables alone, keeps the
invariant. -/
theorem of_sameOn {s s' : Kernel} (h : TablesInv memMap root s) (halloc : AllocInv memMap s')
    (hsame : ∀ t, Table s.mem root t → SameOn t 4096 s.mem s'.mem)
    (hrequests : s'.requests = s.requests)
    (hmark : ∀ k < reach memMap, s.marked k = true → s'.marked k = true) :
    TablesInv memMap root s' := by
  refine ⟨halloc, ?_, ?_, ?_⟩
  · intro p q t hp hq hpt hqt
    rw [descend_congr hsame p (by omega)] at hpt
    rw [descend_congr hsame q (by omega)] at hqt
    exact h.separated p q t hp hq hpt hqt
  · intro t ht
    obtain ⟨hlt, hm, hnot⟩ := h.tables t ((table_congr hsame t).mp ht)
    exact ⟨hlt, hmark _ hlt hm, hnot⟩
  · rw [hrequests]
    exact h.given

theorem lockPages {s : Kernel} (h : TablesInv memMap root s) {addr pageCount : BitVec 64}
    (hlock : ∀ k ≤ (initialBitmap memMap).last, LoopFrames addr pageCount k → k < 2 ^ 34) :
    TablesInv memMap root (lockPages s addr pageCount) :=
  h.of_sameOn (h.alloc.lockPages addr pageCount) (h.sameOn_lockPages hwf hroot hlock)
    (keeps_forPages (keeps_takePage .used) s addr pageCount).requests
    fun _ hk hm => (marked_forPages_takePage (h.alloc.le_last hk)).mpr (Or.inl hm)

theorem takeFrame {s : Kernel} (h : TablesInv memMap root s)
    (hOk : Granted memMap (nextRequest bootAllocator s)) :
    TablesInv memMap root (s.takeFrame bootAllocator).2 := by
  have hreq : TablesInv memMap root (requestPage s).2 :=
    h.of_sameOn (h.alloc.requestPage hOk) (h.sameOn_requestPage hwf hroot hOk)
      (keeps_requestPage s).requests
      fun _ hk hm => (marked_requestPage h.alloc.hint (h.alloc.le_last hk)).mpr (Or.inl hm)
  refine ⟨hreq.alloc.congr rfl fun _ _ => rfl, hreq.separated, hreq.tables, fun r hr => ?_⟩
  rw [Machine.takeFrame_requests] at hr
  rcases List.mem_cons.mp hr with rfl | hr
  · exact ⟨(h.alloc.request_frame hOk).1, hOk⟩
  · exact h.given r hr

/-- **A granted frame is fresh.** -/
theorem fresh {s : Kernel} (h : TablesInv memMap root s)
    (hOk : Granted memMap (nextRequest bootAllocator s))
    (hdirect : ∀ x, (x - (requestPage s).1).toNat < 4096 →
      (s.takeFrame bootAllocator).2.Direct x) :
    FreshFrame bootAllocator root s := by
  obtain ⟨hf, hfree, -, -⟩ := h.alloc.request_frame hOk
  refine ⟨rfl, hf, fun htable => ?_, h.sameOn_requestPage hwf hroot hOk, hdirect⟩
  have hm := (h.tables _ htable).2.1
  exact absurd (hm.symm.trans hfree) (by decide)

/-- **Linking a requested frame** as a table keeps the invariant, and marks that frame. -/
theorem linkTable {s : Kernel} (h : TablesInv memMap root s)
    (hOk : Granted memMap (nextRequest bootAllocator s)) {pre : List (BitVec 9)}
    {t e : BitVec 64} {i : BitVec 9} (hdepth : pre.length < 3)
    (hlink : Link (edge s.mem) (edge (linkTable (s.takeFrame bootAllocator).2 t i
      (requestPage s).1 e).mem) 3 root pre t i (requestPage s).1) :
    TablesInv memMap root
        (linkTable (s.takeFrame bootAllocator).2 t i (requestPage s).1 e) ∧
      ∀ k < reach memMap,
        (EtaOs.linkTable (s.takeFrame bootAllocator).2 t i (requestPage s).1 e).marked k =
          (requestPage s).2.marked k := by
  obtain ⟨hf, hfree, hmarked, hnot⟩ := h.alloc.request_frame hOk
  have hreq := h.takeFrame hwf hroot hOk
  have htable : Table s.mem root t := ⟨pre, by omega, hlink.reach⟩
  have htframe := isFrame_of_table hroot htable
  have hnew : ¬ Table s.mem root (requestPage s).1 := by
    intro hmem
    exact absurd ((h.tables _ hmem).2.1.symm.trans hfree) (by decide)
  obtain ⟨halloc, hmark⟩ := alloc_of_write hwf
    (EtaOs.linkTable (s.takeFrame bootAllocator).2 t i (requestPage s).1 e) hreq.alloc hf htframe
    hnot (h.tables t htable).2.2 rfl (by
      intro x hxf hxt
      have hrange := entryAddr_range t i
      have hx8 : ¬ (x - entryAddr t i).toNat < 8 := by bv_omega
      unfold EtaOs.linkTable store64 fill
      simp only [hx8, if_false, hxf])
  refine ⟨⟨halloc, hlink.separated h.separated fun _ => hnew, fun u hu => ?_, hreq.given⟩, hmark⟩
  rcases (hlink.isTable_iff h.separated).mp hu with hu | ⟨-, rfl⟩
  · -- an old table is marked before the request, hence after it
    obtain ⟨hult, hum, hunot⟩ := h.tables u hu
    refine ⟨hult, ?_, hunot⟩
    rw [hmark _ hult]
    exact (marked_requestPage h.alloc.hint (h.alloc.le_last hult)).mpr (Or.inl hum)
  · have hlt : frameIndex (requestPage s).1 < reach memMap := hOk.2
    refine ⟨hlt, ?_, hnot⟩
    rw [hmark _ hlt]
    exact hmarked

/-- **Setting a page** keeps the invariant and the marks. -/
theorem linkPage {s : Kernel} (h : TablesInv memMap root s) {pre : List (BitVec 9)}
    {t e f : BitVec 64} {i : BitVec 9} (hdepth : pre.length = 3)
    (hlink : Link (edge s.mem) (edge (linkPage s t i e).mem) 3 root pre t i f) :
    TablesInv memMap root (EtaOs.linkPage s t i e) ∧
      ∀ k < reach memMap, (EtaOs.linkPage s t i e).marked k = s.marked k := by
  have htable : Table s.mem root t := ⟨pre, by omega, hlink.reach⟩
  have htframe := isFrame_of_table hroot htable
  have htnot := (h.tables t htable).2.2
  obtain ⟨halloc, hmark⟩ := alloc_of_write hwf (EtaOs.linkPage s t i e) h.alloc htframe
    htframe htnot htnot rfl (by
      intro x hxt _
      have hrange := entryAddr_range t i
      have hx8 : ¬ (x - entryAddr t i).toNat < 8 := by bv_omega
      unfold EtaOs.linkPage store64
      simp only [hx8, if_false])
  refine ⟨⟨halloc, hlink.separated h.separated fun hlt => by omega, fun u hu => ?_, h.given⟩,
    hmark⟩
  rcases (hlink.isTable_iff h.separated).mp hu with hu | ⟨hlt, -⟩
  · obtain ⟨hult, hum, hunot⟩ := h.tables u hu
    refine ⟨hult, ?_, hunot⟩
    rw [hmark _ hult]
    exact hum
  · omega

end WellFormed

end TablesInv

/-- **Before paging `map_mem` keeps the tables**, as long as its requests are granted. -/
theorem mapInv_boot (hwf : WellFormedMap memMap) (hroot : IsFrame root) :
    MapInv bootAllocator root (fun s => TablesInv memMap root s ∧ s.cr3 = none)
      (Granted memMap) fun _ _ => True where
  frame := hroot
  cr3 := by
    rintro s ⟨-, hcr3⟩ r hr
    rw [hcr3] at hr
    exact absurd hr.symm (Option.some_ne_none r)
  separated := fun _ h => h.1.separated
  direct := fun _ h _ _ x _ => Machine.direct_of_cr3_none h.2 x
  fresh := fun s h hOk => h.1.fresh hwf hroot hOk fun x _ =>
    Machine.direct_of_cr3_none ((Machine.takeFrame_cr3 bootAllocator s).trans h.2) x
  table := fun s _ _ _ _ _ _ h hOk _ _ hdepth hlink =>
    ⟨(h.1.linkTable hwf hroot hOk hdepth hlink).1,
      (Machine.takeFrame_cr3 bootAllocator s).trans h.2⟩
  page := fun _ _ _ _ _ h _ hlink => ⟨(h.1.linkPage hwf hroot rfl hlink).1, h.2⟩

end EtaOs
