import EtaOs.KernelHeap.Room

/-!
# The frames behind the heap

The heap lies above the memory that `prepare_mem` maps to itself, and the pages that
`init_heap` and `extend_heap` map are all present afterwards, behind different frames that
are marked and that are not page tables.  The frames are taken one by one while `map_mem`
takes frames for its tables, so this is carried through every call of `request_page`.

The bitmap has to lie in that memory as well.  `request_page` reads it through the tables that
are loaded, and a bitmap further up may be hidden by the first page of the heap that is mapped
over it: the next request then scans the heap, and returns a frame it has returned before.

* `HeapBacked`: what holds of the pages between `heap_start` and `heap_end`.
* `ExtendStep`: a call of `extend_heap` that returns.
* `HeapInv`: what every call keeps.
* `heapBacked_of_run`: the pages are backed after `init_heap` and every sequence of
  extensions.
-/

namespace EtaOs

open ByteMemory Fallible RadixTree Relation

/-! ## Statement -/

/-- A page of the heap, by its address. -/
def InHeap {σ : Type} (k : KernelHeap σ) (v : Addr) : Prop :=
  v.toNat % 4096 = 0 ∧ k.heapStart.toNat ≤ v.toNat ∧ v.toNat < k.heapEnd.toNat

/-- The pages of the heap are present, and the frames behind them are different, marked, and
no page tables. -/
structure HeapBacked (root : BitVec 64) (k : KernelHeap PageFrameAllocator) : Prop where
  present : ∀ v, InHeap k v → ∃ f, walk k.machine.mem root v = some f
  distinct : ∀ v w f, InHeap k v → InHeap k w → walk k.machine.mem root v = some f →
    walk k.machine.mem root w = some f → v = w
  locked : ∀ v f, InHeap k v → walk k.machine.mem root v = some f →
    k.machine.marked (frameIndex f) = true
  notTable : ∀ v f, InHeap k v → walk k.machine.mem root v = some f →
    ¬ Table k.machine.mem root f

/-- A call of `extend_heap` that returns, and moves `heap_end` to `2 ^ 48` at most. -/
inductive ExtendStep (ptm : PageTableManager) :
    KernelHeap PageFrameAllocator → KernelHeap PageFrameAllocator → Prop
  | extend (k k' : KernelHeap PageFrameAllocator) (length : BitVec 64) (hpos : 1 ≤ length.toNat)
      (hlength : length.toNat ≤ 2 ^ 40) (hend : k.heapEnd.toNat + pagesUp length.toNat ≤ 2 ^ 48)
      (hrun : HeapM.extendHeap globalAllocator ptm length k = some ((), k')) : ExtendStep ptm k k'

variable {memMap : List EfiMemoryDescriptor} {root a : BitVec 64} {n : ℕ}
  {k k' : KernelHeap PageFrameAllocator} {h : Heap}

/-! ## The invariant -/

/-- The addresses of the pages, when the globals are those of `n` pages from `a` on. -/
theorem inHeap_iff (hrange : HeapRange memMap a n) (hk : Refines memMap root a n k h)
    (hglobals : HeapGlobals a n h) {v : Addr} : InHeap k v ↔ ∃ j < n, v = heapPage a j := by
  have haligned := hrange.aligned
  have hstart : k.heapStart = a := hk.heapStart.trans hglobals.heapStart
  have hend : k.heapEnd = heapPage a n := hk.heapEnd.trans hglobals.heapEnd
  rw [InHeap, hstart, hend, hrange.toNat_heapPage_of_le le_rfl]
  constructor
  · rintro ⟨hmod, hge, hlt⟩
    refine ⟨(v.toNat - a.toNat) / 4096, by omega, BitVec.eq_of_toNat_eq ?_⟩
    rw [hrange.toNat_heapPage (by omega)]
    omega
  · rintro ⟨j, hj, rfl⟩
    rw [hrange.toNat_heapPage hj]
    omega

/-- **A heap whose pages show a heap on virtual memory** is backed. -/
theorem heapBacked_of_refines (hrange : HeapRange memMap a n) (hk : Refines memMap root a n k h)
    (hglobals : HeapGlobals a n h) : HeapBacked root k := by
  have hpages := hk.shown.pages
  refine ⟨fun v hv => ?_, fun v w f hv hw hvf hwf => ?_, fun v f hv hf => ?_, fun v f hv hf => ?_⟩
  · obtain ⟨j, hj, rfl⟩ := (inHeap_iff hrange hk hglobals).mp hv
    exact hpages.present j hj
  · obtain ⟨i, hi, rfl⟩ := (inHeap_iff hrange hk hglobals).mp hv
    obtain ⟨j, hj, rfl⟩ := (inHeap_iff hrange hk hglobals).mp hw
    rw [hpages.distinct i hi j hj f hvf hwf]
  · obtain ⟨j, hj, rfl⟩ := (inHeap_iff hrange hk hglobals).mp hv
    exact (hpages.held j hj f hf).marked
  · obtain ⟨j, hj, rfl⟩ := (inHeap_iff hrange hk hglobals).mp hv
    exact (hpages.held j hj f hf).notTable

/-- What is known of the heap behind `init_heap`, as long as no request has returned `NULL`:
it has some pages from `a` on, and they show a heap on virtual memory. -/
def HeapInv (memMap : List EfiMemoryDescriptor) (root a : BitVec 64)
    (k : KernelHeap PageFrameAllocator) : Prop :=
  Recorded memMap k.machine ∧ ((∀ r ∈ k.machine.requests, r.frame ≠ 0) →
    ∃ n h, HeapRange memMap a n ∧ Refines memMap root a n k h ∧ HeapGlobals a n h)

/-- The frames on the record stay among those that the bitmap counts. -/
def KeepsRecord (memMap : List EfiMemoryDescriptor) (k k' : KernelHeap PageFrameAllocator) : Prop :=
  Recorded memMap k.machine → Recorded memMap k'.machine

instance (memMap : List EfiMemoryDescriptor) (ptm : PageTableManager) :
    HeapRel globalAllocator ptm (KeepsRecord memMap) where
  refl _ := id
  trans := fun _ _ _ h h' => h' ∘ h
  quiet := by
    intro k k' hsame hrec
    refine ⟨?_, ?_, ?_⟩
    · rw [hsame.alloc]
      exact hrec.bitmap
    · rw [hsame.alloc]
      exact hrec.memSize
    · rw [hsame.requests]
      exact hrec.frames
  mapMem := by
    intro v p k u k' heq hrec
    obtain ⟨s, hs, heq⟩ := Option.map_eq_some_iff.mp heq
    obtain ⟨-, rfl⟩ := Prod.mk.inj heq
    exact hrec.mapMem counted_globalAllocator hs
  mapNewPage := by
    intro pos k u k' heq hrec
    obtain ⟨s, hs, rfl, -⟩ := mapNewPage_eq_some heq
    exact hrec.mapHeapPage hs

/-- An extension only adds requests. -/
theorem ExtendStep.suffix {ptm : PageTableManager} (hstep : ExtendStep ptm k k') :
    k.machine.requests <:+ k'.machine.requests := by
  obtain ⟨length, -, -, -, hrun⟩ := hstep
  have hmoves : Moves Recorder (HeapM.extendHeap globalAllocator ptm length) :=
    HeapM.moves_extendHeap
  exact hmoves k () k' hrun

section Steps

variable (hwf : WellFormedMap memMap) (hpages : 1 ≤ totalFrames memMap)
  (hsize : (totalMem memMap).toNat ≤ 2 ^ 48) (hroot : IsFrame root)

include hwf hpages hsize hroot

/-- **Step.**  An extension keeps what is known of the heap. -/
theorem HeapInv.extend (hk : HeapInv memMap root a k) (hstep : ExtendStep ⟨root⟩ k k') :
    HeapInv memMap root a k' := by
  have hsuffix := hstep.suffix
  obtain ⟨length, hpos, -, hend, hrun⟩ := hstep
  have hmoves : Moves (KeepsRecord memMap) (HeapM.extendHeap globalAllocator ⟨root⟩ length) :=
    HeapM.moves_extendHeap
  have hrec := hmoves k () k' hrun hk.1
  refine ⟨hrec, fun hnull => ?_⟩
  obtain ⟨n, h, hrange, hrefines, hglobals⟩ := hk.2 fun r hr => hnull r (hsuffix.subset hr)
  have hheapEnd : k.heapEnd = heapPage a n := hrefines.heapEnd.trans hglobals.heapEnd
  rw [hheapEnd, hrange.toNat_heapPage_of_le le_rfl] at hend
  have hrange' : HeapRange memMap a (n + pagesUp length.toNat / 4096) := by
    refine ⟨hrange.aligned, hrange.above, ?_⟩
    unfold pagesUp at hend ⊢
    omega
  obtain ⟨fresh, hrefines', hglobals'⟩ := extendHeap_refines hwf hpages hsize hroot hpos hrange'
    hrefines hglobals hrun (hrec.granted hsize hnull)
  exact ⟨_, _, hrange', hrefines', hglobals'⟩

/-- **Run.**  Extensions keep what is known of the heap. -/
theorem HeapInv.extends (hk : HeapInv memMap root a k)
    (hrun : ReflTransGen (ExtendStep ⟨root⟩) k k') : HeapInv memMap root a k' :=
  Runs.invariant (fun _ _ hstep h => h.extend hwf hpages hsize hroot hstep) hrun hk

end Steps

/-! ## From `prepare_mem` on -/

/-- Without a page `init_heap` stores its header where nothing is mapped, and faults. -/
theorem initHeap_zero_ne_some {ptm : PageTableManager} {u : Unit}
    (hcr3 : k.machine.cr3 = some root) (hvacant : walk k.machine.mem root a = none) :
    HeapM.initHeap globalAllocator ptm a 0 k ≠ some (u, k') := by
  intro hrun
  obtain ⟨_, _, hloop, hlist⟩ := bind_eq_some.mp hrun
  obtain ⟨-, rfl⟩ := Prod.mk.inj (Option.some.inj hloop)
  obtain ⟨_, _, hglobals, hlist⟩ := bind_eq_some.mp hlist
  obtain ⟨-, rfl⟩ := Prod.mk.inj (Option.some.inj hglobals)
  obtain ⟨_, _, hstore, -⟩ := bind_eq_some.mp hlist
  obtain ⟨s, hs, -⟩ := Option.map_eq_some_iff.mp hstore
  obtain ⟨p, hp, -⟩ := Option.map_eq_some_iff.mp hs
  have hphys : k.machine.phys a = none := by
    rw [Machine.phys, hcr3]
    show (walk k.machine.mem root a).map _ = none
    rw [hvacant]
    rfl
  exact Option.some_ne_none p (hp.symm.trans hphys)

variable {m : Mem} {info : BootInfo}

/-- What holds when the PML4 is loaded, if no request has returned `NULL`. -/
theorem loadedInv_of_ne_zero {s : Kernel} (hwf : WellFormedMap info.memMap)
    (hfb : FrameBufInReach info) (hsize : (totalMem info.memMap).toNat ≤ 2 ^ 48)
    (hframe : ∀ x, Visited info.baseAdress (frameBufEnd info) x → x.toNat < 2 ^ 48)
    (hrun : prepareMem (bootKernel m) info = some s) (hnull : ∀ r ∈ s.requests, r.frame ≠ 0) :
    1 ≤ totalFrames info.memMap ∧ IsFrame (pml4 m info) ∧ Recorded info.memMap s ∧
      LoadedInv info.memMap (pml4 m info) s := by
  have hrec : Recorded info.memMap s := by
    obtain ⟨_, s₂, _, _, -, -, -, -, hrec, rfl⟩ := prepareMem_calls hrun
    exact ⟨hrec.bitmap, hrec.memSize, hrec.frames⟩
  obtain ⟨hroot, hid⟩ := loadedInv_of_inReach hwf hfb hsize hframe hrun (hrec.granted hsize hnull)
  refine ⟨?_, hroot, hrec, hid⟩
  -- a machine without a page of memory has no frame but `NULL`
  by_contra hzero
  have hbytes := initialBitmap_size info.memMap
  obtain ⟨i, hi, heq⟩ :=
    counted_bootAllocator.request_eq_mul (allocInv_beforePaging m info).bitmap
  obtain rfl : i = 0 := BitVec.eq_of_toNat_eq (by simp; omega)
  exact hnull _ (mem_requests_pml4 hrun) heq

/-- With the bitmap in the memory that is mapped to itself, requests find it as before. -/
theorem identityInv_of_ne_zero {s : Kernel} (hwf : WellFormedMap info.memMap)
    (hbelow : BitmapBelow info.memMap) (hfb : FrameBufInReach info)
    (hsize : (totalMem info.memMap).toNat ≤ 2 ^ 48)
    (hframe : ∀ x, Visited info.baseAdress (frameBufEnd info) x → x.toNat < 2 ^ 48)
    (hrun : prepareMem (bootKernel m) info = some s) (hnull : ∀ r ∈ s.requests, r.frame ≠ 0) :
    1 ≤ totalFrames info.memMap ∧ IsFrame (pml4 m info) ∧ Recorded info.memMap s ∧
      IdentityInv info.memMap (pml4 m info) s := by
  obtain ⟨hpages, hroot, hrec, hid⟩ := loadedInv_of_ne_zero hwf hfb hsize hframe hrun hnull
  exact ⟨hpages, hroot, hrec, hid, hbelow⟩

/-- **What is known behind `init_heap`.** -/
theorem heapInv_initHeap {pageCount : BitVec 64} (hwf : WellFormedMap info.memMap)
    (hbelow : BitmapBelow info.memMap) (hfb : FrameBufInReach info)
    (hframe : ∀ x, Visited info.baseAdress (frameBufEnd info) x → x.toNat < 2 ^ 48)
    (haligned : a.toNat % 4096 = 0) (habove : (totalMem info.memMap).toNat ≤ a.toNat)
    (hend : a.toNat + 4096 * pageCount.toNat ≤ 2 ^ 48)
    (hprepare : prepareMem (bootKernel m) info = some k.machine)
    (hvacant : pageCount = 0 → walk k.machine.mem (pml4 m info) a = none)
    (hinit : HeapM.initHeap globalAllocator ⟨pml4 m info⟩ a pageCount k = some ((), k'))
    (hnull : ∀ r ∈ k'.machine.requests, r.frame ≠ 0) :
    (1 ≤ totalFrames info.memMap ∧ IsFrame (pml4 m info)) ∧
      HeapInv info.memMap (pml4 m info) a k' := by
  have hsize : (totalMem info.memMap).toNat ≤ 2 ^ 48 := by omega
  have hmoves : Moves (KeepsRecord info.memMap)
      (HeapM.initHeap globalAllocator ⟨pml4 m info⟩ a pageCount) := HeapM.moves_initHeap
  have hsuffix : Moves Recorder (HeapM.initHeap globalAllocator ⟨pml4 m info⟩ a pageCount) :=
    HeapM.moves_initHeap
  obtain ⟨hpages, hroot, hrec₀, hid⟩ := identityInv_of_ne_zero hwf hbelow hfb hsize hframe
    hprepare fun r hr => hnull r ((hsuffix k () k' hinit).subset hr)
  have hrec := hmoves k () k' hinit hrec₀
  have hpos : 0 < pageCount.toNat := by
    by_contra hzero
    obtain rfl : pageCount = 0 := BitVec.eq_of_toNat_eq (by simp; omega)
    exact initHeap_zero_ne_some hid.cr3 (hvacant rfl) hinit
  have hrange : HeapRange info.memMap a pageCount.toNat := by
    refine ⟨haligned, ?_, hend⟩
    unfold totalFrames
    omega
  obtain ⟨fresh, hrefines, hglobals⟩ := initHeap_refines hwf hpages hsize hroot hpos hrange hid
    hinit (hrec.granted hsize hnull) default
  exact ⟨⟨hpages, hroot⟩, hrec, fun _ => ⟨_, _, hrange, hrefines, hglobals⟩⟩

/-- **The heap is backed.**  With the bitmap in the memory that is mapped to itself, after
`prepare_mem`, `init_heap` of pages from an aligned address above that memory, and any sequence
of calls of `extend_heap` that keeps `heap_end` within `2 ^ 48`, as long as no request has
returned `NULL`: every page of the heap is present, and the frames behind the pages are
different, marked, and no page tables. -/
theorem heapBacked_of_run {k₀ k₁ : KernelHeap PageFrameAllocator} {pageCount : BitVec 64}
    (hwf : WellFormedMap info.memMap) (hbelow : BitmapBelow info.memMap)
    (hfb : FrameBufInReach info)
    (hframe : ∀ x, Visited info.baseAdress (frameBufEnd info) x → x.toNat < 2 ^ 48)
    (haligned : a.toNat % 4096 = 0) (habove : (totalMem info.memMap).toNat ≤ a.toNat)
    (hend : a.toNat + 4096 * pageCount.toNat ≤ 2 ^ 48)
    (hprepare : prepareMem (bootKernel m) info = some k₀.machine)
    (hvacant : pageCount = 0 → walk k₀.machine.mem (pml4 m info) a = none)
    (hinit : HeapM.initHeap globalAllocator ⟨pml4 m info⟩ a pageCount k₀ = some ((), k₁))
    (hrun : ReflTransGen (ExtendStep ⟨pml4 m info⟩) k₁ k)
    (hnull : ∀ r ∈ k.machine.requests, r.frame ≠ 0) : HeapBacked (pml4 m info) k := by
  have hsuffix : k₁.machine.requests <:+ k.machine.requests :=
    Runs.invariant (P := fun k' => k₁.machine.requests <:+ k'.machine.requests)
      (fun _ _ hstep hk => hk.trans hstep.suffix) hrun (List.suffix_refl _)
  obtain ⟨⟨hpages, hroot⟩, hinv⟩ := heapInv_initHeap hwf hbelow hfb hframe haligned habove hend
    hprepare hvacant hinit fun r hr => hnull r (hsuffix.subset hr)
  obtain ⟨n, h, hrange, hrefines, hglobals⟩ :=
    (hinv.extends hwf hpages (by omega) hroot hrun).2 hnull
  exact heapBacked_of_refines hrange hrefines hglobals

/-- On a machine of 16 MiB the heap is backed after one page and an extension by one page. -/
theorem heapBacked_of_run_sixteenMegabytes : ∃ k₀ k₁ k₂ : KernelHeap PageFrameAllocator,
    prepareMem (bootKernel fun _ => 0) (sixteenMegabytes 0) = some k₀.machine ∧
      HeapM.initHeap globalAllocator ⟨pml4 (fun _ => 0) (sixteenMegabytes 0)⟩ 0x100000000000 1 k₀ =
        some ((), k₁) ∧
      ExtendStep ⟨pml4 (fun _ => 0) (sixteenMegabytes 0)⟩ k₁ k₂ ∧
      HeapBacked (pml4 (fun _ => 0) (sixteenMegabytes 0)) k₂ := by
  have hbase : (0 : BitVec 64) = 0 ∨ (0 : BitVec 64) = 0x100000 := Or.inl rfl
  have hwf := sixteenMegabytes_wellFormed hbase
  have hfb := frameBufInReach_sixteenMegabytes hbase
  have hsize : (totalMem (sixteenMegabytes 0).memMap).toNat ≤ 2 ^ 48 :=
    (totalMem_sixteenMegabytes_le hbase).trans (by decide)
  have hframe := @visited_sixteenMegabytes_lt 0
  obtain ⟨s, hprepare, hsupply⟩ :=
    prepareMem_sixteenMegabytes (fun _ => 0) hbase (n := 2) (by omega)
  obtain ⟨hpages, hroot, -, hid⟩ := identityInv_of_ne_zero hwf
    (bitmapBelow_sixteenMegabytes hbase) hfb hsize hframe hprepare
    fun r hr => (hsupply.tables.given r hr).2.1
  have hrange : HeapRange (sixteenMegabytes 0).memMap 0x100000000000 2 := by
    refine ⟨rfl, ?_, by simp⟩
    rw [totalFrames_sixteenMegabytes hbase]
    simp
  have hpath : ∀ j < 2, PathsIn lowPaths (heapPage 0x100000000000 j) := by
    intro j hj
    refine pathsIn_heapStart ?_
    rw [hrange.toNat_heapPage hj]
    simp
    omega
  have habove : (totalMem (sixteenMegabytes 0).memMap).toNat ≤
      (0x100000000000 : BitVec 64).toNat := by
    rw [totalMem_sixteenMegabytes hbase]
    decide
  have hone : 0 < (1 : BitVec 64).toNat := Nat.one_pos
  have hrange₁ : HeapRange (sixteenMegabytes 0).memMap 0x100000000000 (1 : BitVec 64).toNat :=
    hrange.mono (by decide)
  let k₀ : KernelHeap PageFrameAllocator := ⟨s, [], 0, 0, 0⟩
  obtain ⟨_, k₁, hinit, hsupply₁, -⟩ := returns_initHeap (k := k₀) (N := 1) hwf hpages hsize hroot
    hone hrange₁ hid hsupply fun j hj => hpath j (Nat.lt_succ_of_lt hj)
  obtain ⟨fresh, hrefines, hglobals⟩ := initHeap_refines hwf hpages hsize hroot hone hrange₁ hid
    hinit (fun r hr => (hsupply₁.tables.given r hr).2) default
  obtain ⟨k₂, hextend, hgranted⟩ := returns_extendHeap_of_supply (N := 0) hwf hpages hsize
    hroot hone hrange hrefines hglobals hsupply₁ hpath
  have hstep : ExtendStep ⟨pml4 (fun _ => 0) (sixteenMegabytes 0)⟩ k₁ k₂ := by
    refine ExtendStep.extend k₁ k₂ 1 (by decide) (by decide) ?_ hextend
    rw [hrefines.heapEnd, hglobals.heapEnd]
    decide
  exact ⟨k₀, k₁, k₂, hprepare, hinit, hstep, heapBacked_of_run hwf hid.bitmapBelow hfb hframe rfl
    habove (by decide) hprepare (fun h => absurd h (by decide)) hinit (ReflTransGen.single hstep)
    fun r hr => (hgranted r hr).1⟩

end EtaOs
