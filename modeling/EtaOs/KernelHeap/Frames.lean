import EtaOs.KernelHeap.Blocks

/-!
# The heap beside the rest of the kernel

The heap is not alone: other parts of the kernel take frames from the same allocator, map pages
in the same tables, and write to frames of their own at their physical addresses.  None of this
is seen through the pages of the heap, and the heap is not seen in the frames of the others.

* `LeavesHeap`: what a step of another part leaves as it was.
* `LeavesHeap.takeFrame`, `LeavesHeap.mapMem`: a call of `request_page`, and a call of `map_mem`
  for a page that is none of the heap.
* `Reserved.of_request`: the frame that is requested is not behind a page of the heap.
* `BlockInv.request`, `BlockInv.mapMem`, `BlockInv.writeKept`, `BlockInv.writeOwn`: the invariant of
  the blocks.
-/

namespace EtaOs

open ByteMemory Fallible RadixTree

variable {memMap : List EfiMemoryDescriptor} {root a f v p : BitVec 64} {n : ℕ}
  {s s' : Kernel}

/-! ## What is left as it was -/

/-- The pages of memory and of the heap walk as before, every frame that was held is held with
its contents, and nothing beyond the reach of the allocator is written to. -/
structure LeavesHeap (memMap : List EfiMemoryDescriptor) (root a : BitVec 64) (n : ℕ)
    (s s' : Kernel) : Prop where
  identity : IdentityInv memMap root s'
  walk : ∀ j < n, EtaOs.walk s'.mem root (heapPage a j) = EtaOs.walk s.mem root (heapPage a j)
  held : ∀ f, Held memMap root s.mem f s → Held memMap root s.mem f s'
  far : SameFar memMap s.mem s'.mem

namespace LeavesHeap

theorem backs (h : LeavesHeap memMap root a n s s') {j : ℕ} (hj : j < n) :
    Backs root a s' j f ↔ Backs root a s j f := by
  unfold Backs
  rw [h.walk j hj]

theorem refl (hid : IdentityInv memMap root s) : LeavesHeap memMap root a n s s :=
  ⟨hid, fun _ _ => rfl, fun _ hf => hf, SameFar.refl memMap s.mem⟩

/-- The record of the requests may be cut. -/
theorem forget (h : LeavesHeap memMap root a n s s') {requests : List Request}
    (hsub : requests ⊆ s'.requests) :
    LeavesHeap memMap root a n s { s' with requests := requests } where
  identity := by
    obtain ⟨⟨⟨halloc, hseparated, htables, hgiven⟩, hcr3, hidentity⟩, hbelow⟩ := h.identity
    exact ⟨⟨⟨halloc.congr rfl fun _ _ => rfl, hseparated, htables, fun r hr =>
      hgiven r (hsub hr)⟩, hcr3, hidentity⟩, hbelow⟩
  walk := h.walk
  held := fun f hf => by
    obtain ⟨hframe, hreach, hmarked, htable, hbitmap, hsame⟩ := h.held f hf
    exact ⟨hframe, hreach, hmarked, htable, hbitmap, hsame⟩
  far := h.far

/-- **What is shown** is shown afterwards. -/
theorem shown {w : Mem} (h : LeavesHeap memMap root a n s s')
    (hs : Shown memMap root a n w s) : Shown memMap root a n w s' := by
  have hheld : ∀ j < n, ∀ f, Backs root a s' j f → Held memMap root s.mem f s' :=
    fun j hj f hf => h.held f (hs.pages.held j hj f ((h.backs hj).mp hf))
  refine ⟨⟨h.identity, fun j hj => ?_, fun j hj f hf => ?_, fun i hi j hj f hif hjf => ?_⟩,
    fun j hj f hf i hi => ?_⟩
  · obtain ⟨f, hf⟩ := hs.pages.present j hj
    exact ⟨f, (h.backs hj).mpr hf⟩
  · exact { hheld j hj f hf with same := SameOn.refl _ _ _ }
  · exact hs.pages.distinct i hi j hj f ((h.backs hi).mp hif) ((h.backs hj).mp hjf)
  · rw [(hheld j hj f hf).same (f + i) (by bv_omega)]
    exact hs.shows j hj f ((h.backs hj).mp hf) i hi

/-- **Reserved frames** are reserved afterwards, with their contents. -/
theorem spares (h : LeavesHeap memMap root a n s s') : Spares memMap root a n n s s' := by
  refine ⟨fun f hf => ?_, h.far⟩
  have hheld := h.held f hf.held
  refine ⟨⟨{ hheld with same := SameOn.refl _ _ _ }, fun j hj hbacks => ?_⟩, hheld.same⟩
  exact hf.apart j hj ((h.backs hj).mp hbacks)

end LeavesHeap

/-! ## Frames and pages of others -/

/-- A pointer into a frame that is held denotes its own address. -/
theorem Held.direct (hpages : 1 ≤ totalFrames memMap) {m : Mem} {x : Addr}
    (h : Held memMap root m f s) (hid : IdentityInv memMap root s) (hx : (x - f).toNat < 4096) :
    s.Direct x :=
  direct_of_walk hid.cr3 h.frame
    (hid.walk_frame h.frame (lt_of_lt_of_le h.inReach (reach_le_totalFrames hpages))) hx

section Others

variable (hwf : WellFormedMap memMap) (hroot : IsFrame root)

include hwf hroot

/-- **A call of `request_page`.** -/
theorem LeavesHeap.takeFrame (hid : IdentityInv memMap root s)
    (hOk : Granted memMap (nextRequest bootAllocator s)) :
    LeavesHeap memMap root a n s (s.takeFrame bootAllocator).2 where
  identity := hid.takeFrame hwf hroot hOk
  walk := fun j _ => walk_congr (hid.tables.sameOn_requestPage hwf hroot hOk) (heapPage a j)
  held := fun _ hf => hf.takeFrame hwf hroot hid.tables hOk
  far := SameFar.requestPage hwf hid.tables.alloc hOk

/-- **The frame that is requested** is behind no page of the heap. -/
theorem Reserved.of_request (h : HeapPages memMap root a n s)
    (hOk : Granted memMap (nextRequest bootAllocator s)) :
    Reserved memMap root a n (requestPage s).1 (s.takeFrame bootAllocator).2 := by
  have htables := h.identity.tables
  refine ⟨Held.of_request hwf hroot htables hOk, fun j hj hbacks => ?_⟩
  have hleaves : LeavesHeap memMap root a n s (s.takeFrame bootAllocator).2 :=
    LeavesHeap.takeFrame hwf hroot h.identity hOk
  -- the frames behind the pages were marked before the request
  have hmarked := (h.held j hj _ ((hleaves.backs hj).mp hbacks)).marked
  obtain ⟨-, hfree, -, -⟩ := htables.alloc.request_frame hOk
  exact absurd (hmarked.symm.trans hfree) (by decide)

/-- **A call of `map_mem`** for a page that is none of the heap, and none of memory unless it is
mapped to itself. -/
theorem LeavesHeap.mapMem (hpages : 1 ≤ totalFrames memMap)
    (hsize : (totalMem memMap).toNat ≤ 2 ^ 48) (hid : IdentityInv memMap root s)
    (hallowed : KeepsMemory memMap v p) (hnot : ∀ j < n, ¬ SamePage v (heapPage a j))
    (hrun : PageTableManager.mapMem globalAllocator ⟨root⟩ s v p = some s')
    (hOk : ∀ r ∈ s'.requests, Granted memMap r) : LeavesHeap memMap root a n s s' := by
  have hM := mapInv_paged hwf (mapInv_far (m := s.mem) hwf (mapInv_held (m := s.mem) hwf
    (mapInv_memory hwf hpages hsize hroot) (fun _ hI => hI.tables)
      {f | Held memMap root s.mem f s}) fun _ hI => hI.1.tables) fun _ hI => hI.1.1
  obtain ⟨⟨⟨hid', hheld⟩, hfar⟩, hwalk⟩ :=
    hM.mapMem_spec ⟨⟨hid, fun _ hf => hf⟩, SameFar.refl memMap s.mem⟩ hallowed hrun hOk
  refine ⟨hid', fun j hj => ?_, hheld, hfar⟩
  rw [hwalk, if_neg (hnot j hj)]

end Others

/-! ## The invariant of the blocks -/

variable {B : Set (BitVec 64)} {m m' : Mem} {k : KernelHeap PageFrameAllocator} {h : Heap}
  {segs : List Segment} {u : KernelState}

/-- The contents of the frames that are kept may be taken from the memory as it is. -/
theorem Mirrors.rebase (hk : Mirrors memMap root a n B m k h) :
    Mirrors memMap root a n B k.machine.mem k h :=
  ⟨hk.refines, hk.null, fun f hf hne => ⟨(hk.kept f hf hne).1, SameOn.refl _ _ _⟩,
    SameFar.refl memMap k.machine.mem⟩

/-- Steps of other parts leave what the machine mirrors. -/
theorem Mirrors.of_leaves (hk : Mirrors memMap root a n B m k h)
    (hleaves : LeavesHeap memMap root a n k.machine s')
    (mapCalls : List (MapCall PageFrameAllocator)) :
    Mirrors memMap root a n B m { k with machine := s', mapCalls := mapCalls } h := by
  have hspares := hleaves.spares
  refine ⟨⟨hleaves.shown hk.refines.shown, hk.refines.heapStart, hk.refines.heapEnd,
    hk.refines.lastHeader⟩, (hspares.reserved 0 hk.null).1, fun f hf hne => ?_,
      hk.far.trans hspares.far⟩
  obtain ⟨hreserved, hsame⟩ := hk.kept f hf hne
  obtain ⟨hreserved', hsame'⟩ := hspares.reserved f hreserved
  exact ⟨hreserved', hsame.trans hsame'⟩

/-- One more frame is kept. -/
theorem Mirrors.keep (hk : Mirrors memMap root a n B k.machine.mem k h)
    (hf : Reserved memMap root a n f k.machine) :
    Mirrors memMap root a n (insert f B) k.machine.mem k h := by
  refine ⟨hk.refines, hk.null, fun g hg hne => ?_, hk.far⟩
  rcases hg with rfl | hg
  · exact ⟨hf, SameOn.refl _ _ _⟩
  · exact hk.kept g hg hne

/-- Writing to a frame that is kept leaves what the machine mirrors. -/
theorem Mirrors.writeKept (hwf : WellFormedMap memMap) (hroot : IsFrame root)
    (hk : Mirrors memMap root a n B m k h) (hf : f ∈ B) (hne : f ≠ 0)
    (hmem : ∀ x, ¬ (x - f).toNat < 4096 → m' x = k.machine.mem x) :
    Mirrors memMap root a n B m' { k with machine := { k.machine with mem := m' } } h := by
  have htables := hk.refines.shown.pages.identity.tables
  obtain ⟨hreserved, -⟩ := hk.kept f hf hne
  obtain ⟨hshown, hreserved'⟩ := hk.refines.shown.writeReserved hwf hroot hreserved hmem
  refine ⟨⟨hshown, hk.refines.heapStart, hk.refines.heapEnd, hk.refines.lastHeader⟩,
    (hk.null.write hwf hroot htables hreserved.held hne hmem).1,
    fun g hg hg0 => ⟨?_, SameOn.refl _ _ _⟩, SameFar.refl memMap m'⟩
  by_cases heq : f = g
  · exact heq ▸ hreserved'
  · exact ((hk.kept g hg hg0).1.write hwf hroot htables hreserved.held heq hmem).1

/-- Writing to a frame beyond the reach of the allocator leaves what the machine mirrors. -/
theorem Mirrors.writeFar (hwf : WellFormedMap memMap) (hroot : IsFrame root)
    (hk : Mirrors memMap root a n B m k h) (hf : IsFrame f) (hfar : reach memMap ≤ frameIndex f)
    (hnot : ¬ BitmapFrame memMap (frameIndex f))
    (hmem : ∀ x, ¬ (x - f).toNat < 4096 → m' x = k.machine.mem x) :
    Mirrors memMap root a n B m' { k with machine := { k.machine with mem := m' } } h := by
  have hpages := hk.refines.shown.pages
  obtain ⟨hshown, hreserved⟩ := hk.refines.shown.write hwf hroot hf
    (fun ht => absurd (hpages.identity.tables.tables f ht).1 (by omega)) hnot
    (fun j hj hbacks => absurd (hpages.held j hj f hbacks).inReach (by omega)) hmem
  exact ⟨⟨hshown, hk.refines.heapStart, hk.refines.heapEnd, hk.refines.lastHeader⟩,
    hreserved 0 hk.null, fun g hg hg0 => ⟨hreserved g (hk.kept g hg hg0).1, SameOn.refl _ _ _⟩,
    SameFar.refl memMap m'⟩

namespace BlockInv

variable (hinv : BlockInv memMap root a B m n segs u)

include hinv

/-- A machine that mirrors the heap that is seen now has the invariant, with the bytes that are
seen now. -/
theorem of_seen {B' : Set (BitVec 64)} (hk : Mirrors memMap root a n B' m' k u.heap.seen) :
    BlockInv memMap root a B' m' n segs ⟨k, u.live⟩ ∧ ∀ c ∈ u.live, ∀ j < c.size.toNat,
      k.machine.view (c.addr j) = u.heap.machine.view (c.addr j) := by
  refine ⟨BlockInv.of_mirrors hinv.range hk hinv.on hinv.payloads, fun c hc j hj => ?_⟩
  obtain ⟨hval, hlo, hhi⟩ := hinv.addr_toNat hc hj
  exact (hk.refines.shown.view_eq hinv.range (by omega) (by omega)).2

theorem rebase : BlockInv memMap root a B u.heap.machine.mem n segs u :=
  ⟨hinv.range, hinv.mirrors.rebase, hinv.on, hinv.payloads⟩

/-- Fewer frames are kept as well. -/
theorem mono {B' : Set (BitVec 64)} (hsub : B' ⊆ B) : BlockInv memMap root a B' m n segs u :=
  ⟨hinv.range, ⟨hinv.mirrors.refines, hinv.mirrors.null,
    fun f hf => hinv.mirrors.kept f (hsub hf), hinv.mirrors.far⟩, hinv.on, hinv.payloads⟩

/-- The record of the requests may be cut. -/
theorem forget (requests : List Request) (hsub : requests ⊆ u.heap.machine.requests) :
    BlockInv memMap root a B m n segs
      ⟨{ u.heap with machine := { u.heap.machine with requests := requests } }, u.live⟩ := by
  have hid := hinv.mirrors.refines.shown.pages.identity
  exact (hinv.of_seen (hinv.mirrors.of_leaves ((LeavesHeap.refl hid).forget hsub)
    u.heap.mapCalls)).1

/-- The heap that is seen ends where its pages do. -/
theorem bounds_toNat : u.heap.heapStart.toNat = a.toNat ∧
    u.heap.heapEnd.toNat = a.toNat + 4096 * n := by
  have hstart : u.heap.heapStart = a := hinv.on.start
  rw [hstart]
  exact ⟨rfl, hinv.on.stop_toNat hinv.range⟩

/-- A page outside the heap is no page of it. -/
theorem not_samePage (hv : v.toNat < 2 ^ 48)
    (hout : v.toNat < u.heap.heapStart.toNat ∨ u.heap.heapEnd.toNat ≤ v.toNat) :
    ∀ j < n, ¬ SamePage v (heapPage a j) := by
  intro j hj
  obtain ⟨hstart, hstop⟩ := hinv.bounds_toNat
  have haligned := hinv.range.aligned
  have hbelow := hinv.range.below
  have hpage := hinv.range.toNat_heapPage hj
  rw [samePage_iff_of_lt hv (by omega), hpage]
  omega

section Machine

variable (hwf : WellFormedMap memMap) (hroot : IsFrame root)

include hwf hroot

/-- **A frame that another part requests** is kept from then on. -/
theorem request (hOk : Granted memMap (nextRequest bootAllocator u.heap.machine)) :
    BlockInv memMap root a (insert (requestPage u.heap.machine).1 B)
        (u.heap.machine.takeFrame bootAllocator).2.mem n segs
        ⟨{ u.heap with machine := (u.heap.machine.takeFrame bootAllocator).2 }, u.live⟩ ∧
      (∀ c ∈ u.live, ∀ j < c.size.toNat,
        (u.heap.machine.takeFrame bootAllocator).2.view (c.addr j) =
          u.heap.machine.view (c.addr j)) ∧
      ∀ g ∈ B, g ≠ 0 → g ≠ (requestPage u.heap.machine).1 ∧
        SameOn g 4096 u.heap.machine.mem (u.heap.machine.takeFrame bootAllocator).2.mem := by
  have hpages := hinv.mirrors.refines.shown.pages
  have hleaves : LeavesHeap memMap root a n u.heap.machine
      (u.heap.machine.takeFrame bootAllocator).2 :=
    LeavesHeap.takeFrame hwf hroot hpages.identity hOk
  have hk := ((hinv.mirrors.of_leaves hleaves u.heap.mapCalls).rebase).keep
    (Reserved.of_request hwf hroot hpages hOk)
  obtain ⟨hinv', hview⟩ := hinv.of_seen hk
  refine ⟨hinv', hview, fun g hg hne => ?_⟩
  obtain ⟨hreserved, -⟩ := hinv.mirrors.kept g hg hne
  refine ⟨?_, (hleaves.spares.reserved g hreserved).2⟩
  -- what is kept was marked before the request
  rintro rfl
  obtain ⟨-, hfree, -, -⟩ := hpages.identity.tables.alloc.request_frame hOk
  exact absurd (hreserved.held.marked.symm.trans hfree) (by decide)

/-- **A page that another part maps** outside the heap. -/
theorem mapMem (hpages : 1 ≤ totalFrames memMap) (hsize : (totalMem memMap).toNat ≤ 2 ^ 48)
    (hallowed : KeepsMemory memMap v p)
    (hout : v.toNat < u.heap.heapStart.toNat ∨ u.heap.heapEnd.toNat ≤ v.toNat)
    (hrun : HeapM.mapMem globalAllocator ⟨root⟩ v p u.heap = some ((), k))
    (hOk : ∀ r ∈ k.machine.requests, Granted memMap r) :
    BlockInv memMap root a B m n segs ⟨k, u.live⟩ ∧ ∀ c ∈ u.live, ∀ j < c.size.toNat,
      k.machine.view (c.addr j) = u.heap.machine.view (c.addr j) := by
  obtain ⟨t, ht, heq⟩ := Option.map_eq_some_iff.mp hrun
  obtain ⟨-, rfl⟩ := Prod.mk.inj heq
  have hleaves := LeavesHeap.mapMem hwf hroot hpages hsize
    hinv.mirrors.refines.shown.pages.identity hallowed
    (hinv.not_samePage hallowed.1 hout) ht hOk
  exact hinv.of_seen (hinv.mirrors.of_leaves hleaves _)

/-- **Writing to a frame that is kept.** -/
theorem writeKept (hf : f ∈ B) (hne : f ≠ 0)
    (hmem : ∀ x, ¬ (x - f).toNat < 4096 → m' x = u.heap.machine.mem x) :
    BlockInv memMap root a B m' n segs
        ⟨{ u.heap with machine := { u.heap.machine with mem := m' } }, u.live⟩ ∧
      ∀ c ∈ u.live, ∀ j < c.size.toNat,
        Machine.view { u.heap.machine with mem := m' } (c.addr j) =
          u.heap.machine.view (c.addr j) :=
  hinv.of_seen (hinv.mirrors.writeKept hwf hroot hf hne hmem)

/-- **Writing to a frame of the kernel's own**: one that is kept, or beyond reach. -/
theorem writeOwn (hf : IsFrame f) (hne : f ≠ 0) (hnot : ¬ BitmapFrame memMap (frameIndex f))
    (hown : f ∈ B ∨ reach memMap ≤ frameIndex f)
    (hmem : ∀ x, ¬ (x - f).toNat < 4096 → m' x = u.heap.machine.mem x) :
    BlockInv memMap root a B m' n segs
        ⟨{ u.heap with machine := { u.heap.machine with mem := m' } }, u.live⟩ ∧
      ∀ c ∈ u.live, ∀ j < c.size.toNat,
        Machine.view { u.heap.machine with mem := m' } (c.addr j) =
          u.heap.machine.view (c.addr j) := by
  rcases hown with hB | hfar
  · exact hinv.writeKept hwf hroot hB hne hmem
  · exact hinv.of_seen (hinv.mirrors.writeFar hwf hroot hf hfar hnot hmem)

omit hwf hroot in
/-- A pointer into a frame that is kept denotes its own address. -/
theorem direct (hpages : 1 ≤ totalFrames memMap) (hf : f ∈ B) (hne : f ≠ 0) {x : Addr}
    (hx : (x - f).toNat < 4096) : u.heap.machine.Direct x :=
  (hinv.mirrors.kept f hf hne).1.held.direct hpages hinv.mirrors.refines.shown.pages.identity hx

end Machine

end BlockInv

end EtaOs
