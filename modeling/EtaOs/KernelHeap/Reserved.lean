import EtaOs.KernelHeap.Refinement

/-!
# Frames that the heap never touches

A frame that is held and that is behind no page of the heap stays so, whatever the heap maps
and whatever is written through its pages.  Frame 0 is such a frame: it is where `split` writes
when it follows the null `next` of the last segment.  The frames beyond the reach of the
allocator are not written to either.

The frames in question belong to the rest of the kernel, and the heap was written without a thought
of them.  They are kept by one condition only, that they are marked and that no page of the heap
has them behind it.

* `Reserved`: a frame that is held and behind no page of the heap.
* `Reserved.write`: writing to another frame that is held.
* `Shown.write`, `Shown.writeReserved`: writing to a frame behind no page keeps the pages of the
  heap.
* `SameFar`: the frames beyond the reach of the allocator.
* `Spares`, `Spares.mapHeapPage`: mapping the next page leaves all of these as they were.
* `not_table_null`: the address 0 is no table after `prepare_mem`.
-/

namespace EtaOs

open ByteMemory RadixTree

variable {memMap : List EfiMemoryDescriptor} {root a f g : BitVec 64} {n : ℕ} {s : Kernel}

/-- A frame that is held, and behind no page of the heap. -/
structure Reserved (memMap : List EfiMemoryDescriptor) (root a : BitVec 64) (n : ℕ)
    (f : BitVec 64) (s : Kernel) : Prop where
  held : Held memMap root s.mem f s
  apart : ∀ j < n, ¬ Backs root a s j f

section Writes

variable (hwf : WellFormedMap memMap) (hroot : IsFrame root)

include hwf hroot

/-- **Writing to another frame that is held** keeps a reserved frame and its contents. -/
theorem Reserved.write {m m' : Mem} (h : Reserved memMap root a n f s)
    (htables : TablesInv memMap root s) (hg : Held memMap root m g s) (hne : g ≠ f)
    (hmem : ∀ x, ¬ (x - g).toNat < 4096 → m' x = s.mem x) :
    Reserved memMap root a n f { s with mem := m' } ∧ SameOn f 4096 s.mem m' := by
  obtain ⟨-, hsame, hmark⟩ := hg.write hwf hroot htables hmem
  refine ⟨⟨h.held.of_sameOn hsame hmark, fun j hj hbacks => h.apart j hj ?_⟩, fun x hx => ?_⟩
  · exact (walk_congr hsame _).symm.trans hbacks
  · exact hmem x ((hg.frame.apart h.held.frame hne).notMem hx)

/-- **Writing to a frame behind no page of the heap**, which is neither a table nor a part of the
bitmap, keeps the pages of the heap and what they show, and the other frames that are reserved. -/
theorem Shown.write {v m' : Mem} (h : Shown memMap root a n v s) (hg : IsFrame g)
    (htable : ¬ Table s.mem root g) (hnot : ¬ BitmapFrame memMap (frameIndex g))
    (hapart : ∀ j < n, ¬ Backs root a s j g)
    (hmem : ∀ x, ¬ (x - g).toNat < 4096 → m' x = s.mem x) :
    Shown memMap root a n v { s with mem := m' } ∧
      ∀ f, Reserved memMap root a n f s → Reserved memMap root a n f { s with mem := m' } := by
  have hid := h.pages.identity
  obtain ⟨htables, hsame, hmark⟩ := hid.tables.write hwf hroot hg htable hnot hmem
  have hwalk := walk_congr hsame
  have hbacks : ∀ i u, Backs root a { s with mem := m' } i u ↔ Backs root a s i u := by
    intro i u
    unfold Backs
    rw [hwalk]
  refine ⟨⟨⟨hid.of_walk htables rfl fun k _ => hwalk (pageAddress k), fun i hi => ?_,
    fun i hi u hu => ?_, fun i hi k hk u hiu hku => ?_⟩, fun j hj u hu i hi => ?_⟩, fun f hf => ?_⟩
  · obtain ⟨u, hu⟩ := h.pages.present i hi
    exact ⟨u, (hbacks i u).mpr hu⟩
  · exact (h.pages.held i hi u ((hbacks i u).mp hu)).of_sameOn hsame hmark
  · exact h.pages.distinct i hi k hk u ((hbacks i u).mp hiu) ((hbacks k u).mp hku)
  · have hu' := (hbacks j u).mp hu
    have hne : g ≠ u := by
      rintro rfl
      exact hapart j hj hu'
    rw [← h.shows j hj u hu' i hi]
    exact hmem _ ((hg.apart (h.pages.held j hj u hu').frame hne).notMem (by bv_omega))
  · exact ⟨hf.held.of_sameOn hsame hmark, fun j hj hu => hf.apart j hj ((hbacks j f).mp hu)⟩

/-- **Writing to a reserved frame** keeps the pages of the heap and what they show. -/
theorem Shown.writeReserved {v m' : Mem} (h : Shown memMap root a n v s)
    (hg : Reserved memMap root a n g s) (hmem : ∀ x, ¬ (x - g).toNat < 4096 → m' x = s.mem x) :
    Shown memMap root a n v { s with mem := m' } ∧
      Reserved memMap root a n g { s with mem := m' } := by
  obtain ⟨hshown, hreserved⟩ := h.write hwf hroot hg.held.frame hg.held.notTable hg.held.notBitmap
    hg.apart hmem
  exact ⟨hshown, hreserved g hg⟩

end Writes

/-! ## Frames beyond reach -/

/-- The frames beyond the reach of the allocator that hold no part of the bitmap have the same
contents. -/
def SameFar (memMap : List EfiMemoryDescriptor) (m m' : Mem) : Prop :=
  ∀ f, IsFrame f → reach memMap ≤ frameIndex f → ¬ BitmapFrame memMap (frameIndex f) →
    SameOn f 4096 m m'

namespace SameFar

variable {m m' m'' : Mem}

theorem refl (memMap : List EfiMemoryDescriptor) (m : Mem) : SameFar memMap m m :=
  fun _ _ _ _ => SameOn.refl _ _ _

theorem trans (h : SameFar memMap m m') (h' : SameFar memMap m' m'') : SameFar memMap m m'' :=
  fun f hf hfar hnot => (h f hf hfar hnot).trans (h' f hf hfar hnot)

/-- Writing to a frame within reach. -/
theorem of_write (hg : IsFrame g) (hreach : frameIndex g < reach memMap)
    (hmem : ∀ x, ¬ (x - g).toNat < 4096 → m' x = m x) : SameFar memMap m m' := by
  intro f hf hfar _ x hx
  refine hmem x ((hg.apart hf ?_).notMem hx)
  rintro rfl
  omega

/-- Clearing a frame within reach. -/
theorem fill (hg : IsFrame g) (hreach : frameIndex g < reach memMap) (v : BitVec 8) :
    SameFar memMap m (ByteMemory.fill m g 4096 v) :=
  of_write hg hreach fun _ hx => if_neg hx

/-- Writing an entry of a table within reach. -/
theorem storeEntry (hg : IsFrame g) (hreach : frameIndex g < reach memMap) (i : BitVec 9)
    (e : BitVec 64) : SameFar memMap m (store64 m (entryAddr g i) e) := by
  have hi := i.isLt
  refine of_write hg hreach fun x hx => store64_outside ?_ hx e
  bv_omega

/-- A request writes a mark. -/
theorem requestPage (hwf : WellFormedMap memMap) (hs : AllocInv memMap s)
    (hOk : Granted memMap (nextRequest bootAllocator s)) :
    SameFar memMap s.mem (EtaOs.requestPage s).2.mem :=
  fun _ hf _ hnot => Held.sameOn_requestPage hwf hs hOk hf hnot

end SameFar

/-- **`map_mem` leaves the frames beyond reach**, as every table is within reach. -/
theorem mapInv_far {m : Mem} {I : Kernel → Prop} {Allowed : BitVec 64 → BitVec 64 → Prop}
    (hwf : WellFormedMap memMap) (hM : MapInv bootAllocator root I (Granted memMap) Allowed)
    (htables : ∀ s, I s → TablesInv memMap root s) :
    MapInv bootAllocator root (fun s => I s ∧ SameFar memMap m s.mem) (Granted memMap)
      Allowed := by
  refine hM.and ?_ ?_
  · intro s v p pre t i e hI hfar hOk _ _ hdepth hlink
    have hs := htables s hI
    have ht : Table s.mem root t := ⟨pre, by omega, hlink.reach⟩
    obtain ⟨hframe, -, -, -⟩ := hs.alloc.request_frame hOk
    exact ((hfar.trans (SameFar.requestPage hwf hs.alloc hOk)).trans
      (SameFar.fill hframe hOk.2 0)).trans
        (SameFar.storeEntry (isFrame_of_table hM.frame ht) (hs.tables t ht).1 i e)
  · intro s v p t e hI hfar _ hlink
    have hs := htables s hI
    have ht : Table s.mem root t := ⟨_, le_rfl, hlink.reach⟩
    exact hfar.trans (SameFar.storeEntry (isFrame_of_table hM.frame ht) (hs.tables t ht).1 _ e)

/-! ## Mapping pages -/

/-- **What is spared** when the heap goes from `n` pages to `n'`: reserved frames are reserved,
with their contents, and nothing beyond the reach of the allocator is written to. -/
structure Spares (memMap : List EfiMemoryDescriptor) (root a : BitVec 64) (n n' : ℕ)
    (s s' : Kernel) : Prop where
  reserved : ∀ f, Reserved memMap root a n f s →
    Reserved memMap root a n' f s' ∧ SameOn f 4096 s.mem s'.mem
  far : SameFar memMap s.mem s'.mem

theorem Spares.refl (memMap : List EfiMemoryDescriptor) (root a : BitVec 64) (n : ℕ) (s : Kernel) :
    Spares memMap root a n n s s :=
  ⟨fun _ hf => ⟨hf, SameOn.refl _ _ _⟩, SameFar.refl memMap s.mem⟩

theorem Spares.trans {n' n'' : ℕ} {s' s'' : Kernel} (h : Spares memMap root a n n' s s')
    (h' : Spares memMap root a n' n'' s' s'') : Spares memMap root a n n'' s s'' := by
  refine ⟨fun f hf => ?_, h.far.trans h'.far⟩
  obtain ⟨hf', hsame⟩ := h.reserved f hf
  obtain ⟨hf'', hsame'⟩ := h'.reserved f hf'
  exact ⟨hf'', hsame.trans hsame'⟩

section Mapping

variable (hwf : WellFormedMap memMap) (hpages : 1 ≤ totalFrames memMap)
  (hsize : (totalMem memMap).toNat ≤ 2 ^ 48) (hroot : IsFrame root)

include hwf hpages hsize hroot

/-- **Mapping the next page.** -/
theorem Spares.mapHeapPage {s' : Kernel} (hrange : HeapRange memMap a (n + 1))
    (hid : IdentityInv memMap root s)
    (hrun : EtaOs.mapHeapPage ⟨root⟩ s (heapPage a n) = some s')
    (hOk : ∀ r ∈ s'.requests, Granted memMap r) : Spares memMap root a n (n + 1) s s' := by
  have hnext := hid.granted_mapHeapPage hwf hroot hrun hOk
  rw [hid.mapHeapPage_eq hwf hroot] at hrun
  obtain ⟨hframe, hfree, -, -⟩ := hid.tables.alloc.request_frame hnext
  have habove := hrange.above
  have hbelow := hrange.below
  have hpage := hrange.toNat_heapPage (Nat.lt_succ_self n)
  have hallowed : KeepsMemory memMap (heapPage a n) (requestPage s).1 :=
    ⟨by omega, Or.inr (by omega)⟩
  have hM := mapInv_paged hwf (mapInv_far (m := s.mem) hwf (mapInv_held (m := s.mem) hwf
    (mapInv_memory hwf hpages hsize hroot) (fun _ hI => hI.tables)
      {f | Held memMap root s.mem f s}) fun _ hI => hI.1.tables) fun _ hI => hI.1.1
  obtain ⟨⟨⟨-, hheld⟩, hfar⟩, hwalk⟩ := hM.mapMem_spec
    ⟨⟨hid.takeFrame hwf hroot hnext, fun u hu => hu.takeFrame hwf hroot hid.tables hnext⟩,
      SameFar.requestPage hwf hid.tables.alloc hnext⟩ hallowed hrun hOk
  refine ⟨fun f h => ?_, hfar⟩
  have hf := hheld f h.held
  refine ⟨⟨{ hf with same := SameOn.refl _ _ _ }, fun j hj hbacks => ?_⟩, hf.same⟩
  unfold Backs at hbacks
  rw [hwalk, hframe.frameOf] at hbacks
  split at hbacks
  next => -- the frame of the new page was not marked
    obtain rfl := Option.some.inj hbacks
    exact absurd (h.held.marked.symm.trans hfree) (by decide)
  next hjn =>
    rw [hrange.samePage_iff (Nat.lt_succ_self n) hj] at hjn
    refine h.apart j (by omega) ((walk_congr ?_ _).symm.trans hbacks)
    exact hid.tables.sameOn_requestPage hwf hroot hnext

/-- **The loop of `init_heap`.** -/
theorem Spares.mapPages : ∀ {count n : ℕ} {k k' : KernelHeap PageFrameAllocator} {u : Unit},
    HeapRange memMap a (n + count) → HeapPages memMap root a n k.machine →
    HeapM.mapPages globalAllocator ⟨root⟩ count (heapPage a n) k = some (u, k') →
    (∀ r ∈ k'.machine.requests, Granted memMap r) →
    Spares memMap root a n (n + count) k.machine k'.machine := by
  intro count
  induction count with
  | zero =>
      intro n k k' u _ _ hrun _
      obtain ⟨-, rfl⟩ := Prod.mk.inj (Option.some.inj hrun)
      exact Spares.refl memMap root a n k.machine
  | succ count ih =>
      intro n k k' u hrange hk hrun hOk
      obtain ⟨_, k₁, h1, hrest⟩ := Fallible.bind_eq_some.mp hrun
      have hgrow := mapPages_suffix hrest
      obtain ⟨s, hs, rfl, -⟩ := mapNewPage_eq_some h1
      have hOk₁ : ∀ r ∈ k₁.machine.requests, Granted memMap r := fun r hr => hOk r (hgrow.subset hr)
      obtain ⟨hk₁, -⟩ := hk.mapHeapPage hwf hpages hsize hroot (hrange.mono (by omega)) hs hOk₁
      have hspares := Spares.mapHeapPage hwf hpages hsize hroot (hrange.mono (by omega))
        hk.identity hs hOk₁
      rw [heapPage_succ] at hrest
      have hcount : n + 1 + count = n + (count + 1) := by omega
      exact hspares.trans (hcount ▸ ih (hcount ▸ hrange) hk₁ hrest hOk)

/-- **The loop of `extend_heap`.** -/
theorem Spares.growLoop : ∀ {count n : ℕ} {k k' : KernelHeap PageFrameAllocator} {u : Unit},
    HeapRange memMap a (n + count) → HeapPages memMap root a n k.machine →
    k.heapEnd = heapPage a n →
    HeapM.growLoop globalAllocator ⟨root⟩ count k = some (u, k') →
    (∀ r ∈ k'.machine.requests, Granted memMap r) →
    Spares memMap root a n (n + count) k.machine k'.machine := by
  intro count
  induction count with
  | zero =>
      intro n k k' u _ _ _ hrun _
      obtain ⟨-, rfl⟩ := Prod.mk.inj (Option.some.inj hrun)
      exact Spares.refl memMap root a n k.machine
  | succ count ih =>
      intro n k k' u hrange hk hend hrun hOk
      obtain ⟨_, _, hget, hrun⟩ := Fallible.bind_eq_some.mp hrun
      obtain ⟨rfl, rfl⟩ := Prod.mk.inj (Option.some.inj hget)
      obtain ⟨_, k₁, h1, hrun⟩ := Fallible.bind_eq_some.mp hrun
      obtain ⟨_, k₂, h2, hrest⟩ := Fallible.bind_eq_some.mp hrun
      obtain ⟨-, rfl⟩ := Prod.mk.inj (Option.some.inj h2)
      have hgrow := growLoop_suffix hrest
      obtain ⟨s, hs, rfl, -, hend₁, -⟩ := mapNewPage_eq_some h1
      rw [hend] at hs
      have hOk₁ : ∀ r ∈ k₁.machine.requests, Granted memMap r := fun r hr => hOk r (hgrow.subset hr)
      obtain ⟨hk₁, -⟩ := hk.mapHeapPage hwf hpages hsize hroot (hrange.mono (by omega)) hs hOk₁
      have hspares := Spares.mapHeapPage hwf hpages hsize hroot (hrange.mono (by omega))
        hk.identity hs hOk₁
      have hcount : n + 1 + count = n + (count + 1) := by omega
      have hend₂ : k₁.heapEnd + 0x1000 = heapPage a (n + 1) := by
        rw [hend₁, hend, ← heapPage_succ]
      exact hspares.trans (hcount ▸ ih (k := { k₁ with heapEnd := k₁.heapEnd + 0x1000 })
        (hcount ▸ hrange) hk₁ hend₂ hrest hOk)

end Mapping

/-! ## Frame 0 -/

/-- **`map_mem` links no table at address 0**, when no request returns `NULL`. -/
theorem mapInv_notTableNull {I : Kernel → Prop} {Allowed : BitVec 64 → BitVec 64 → Prop}
    (hM : MapInv bootAllocator root I (Granted memMap) Allowed) :
    MapInv bootAllocator root (fun s => I s ∧ ¬ Table s.mem root 0) (Granted memMap) Allowed := by
  refine hM.and ?_ ?_
  · intro s v p pre t i e hI hnot hOk _ _ hdepth hlink ht
    rcases (hlink.isTable_iff (hM.separated s hI)).mp ht with ht | ⟨-, heq⟩
    · exact hnot ht
    · exact hOk.1 heq.symm
  · intro s v p t e hI hnot _ hlink ht
    rcases (hlink.isTable_iff (hM.separated s hI)).mp ht with ht | ⟨hlt, -⟩
    · exact hnot ht
    · exact absurd hlt (by simp)

variable {m : Mem} {info : BootInfo}

/-- **After `prepare_mem` the address 0 is no table.** -/
theorem not_table_null (hwf : WellFormedMap info.memMap) (hfb : FrameBufInReach info)
    (hrun : prepareMem (bootKernel m) info = some s)
    (hOk : ∀ r ∈ s.requests, Granted info.memMap r) : ¬ Table s.mem (pml4 m info) 0 := by
  have hfirst := hOk _ (mem_requests_pml4 hrun)
  have htables := tablesInv_clearedPml4 hwf hfirst
  have hroot : IsFrame (pml4 m info) := ((allocInv_beforePaging m info).request_frame hfirst).1
  have hM := mapInv_notTableNull (mapInv_boot hwf hroot)
  have hI : (TablesInv info.memMap (pml4 m info) (clearedPml4 m info) ∧
      (clearedPml4 m info).cr3 = none) ∧ ¬ Table (clearedPml4 m info).mem (pml4 m info) 0 := by
    refine ⟨⟨htables, clearedPml4_cr3 m info⟩, fun ht => hfirst.1 ?_⟩
    exact ((isTable_of_root_empty (edge_clearedPml4 m info)).mp ht).symm
  have hlock : ∀ s, (TablesInv info.memMap (pml4 m info) s ∧ s.cr3 = none) ∧
      ¬ Table s.mem (pml4 m info) 0 →
      ((TablesInv info.memMap (pml4 m info) (lockFrameBuffer info s) ∧
        (lockFrameBuffer info s).cr3 = none) ∧
          ¬ Table (lockFrameBuffer info s).mem (pml4 m info) 0) ∧
        ∀ w, walk (lockFrameBuffer info s).mem (pml4 m info) w = walk s.mem (pml4 m info) w := by
    rintro s ⟨⟨hs, hcr3⟩, hnot⟩
    have hsame := hs.sameOn_lockPages hwf hroot hfb
    exact ⟨⟨⟨hs.lockPages hwf hroot hfb, (keeps_lockFrameBuffer info s).cr3.trans hcr3⟩,
      fun ht => hnot ((table_congr hsame 0).mp ht)⟩, walk_congr hsame⟩
  obtain ⟨s₂, ⟨-, hnot⟩, rfl, -⟩ := prepareMem_run hM hI hlock (fun _ _ => trivial)
    (fun _ _ => trivial) hrun hOk
  exact hnot

end EtaOs
