import EtaOs.Boot.TablesInv

/-!
# The run of `prepare_mem`

What `prepare_mem` has done when it loads the new PML4: two sequences of `map_mem` calls
on a cleared table, with the locking of the framebuffer between them.

Everything later starts from `prepareMem_run`: an invariant is chosen, shown to be kept by a link
in the tree of tables, and this theorem carries it through both loops.  That the loops are long,
and that the framebuffer is locked between them, is dealt with here once.

* `beforePaging`, `pml4`, `clearedPml4`: the state the first call is made in.
* `prepareMem_calls`: the calls, and a bound on the frames they were given.
* `prepareMem_isSome`: when both loops end.
* `prepareMem_run`: an invariant of `map_mem` holds at the end, and the walk is that of the
  last call for a page.
-/

namespace EtaOs

open ByteMemory IntLoop RadixTree

/-! ## Before the first call -/

/-- The memory map is read and the kernel is locked. -/
def beforePaging (m : Mem) (info : BootInfo) : Kernel :=
  lockPages (readEfiMemoryMap (bootKernel m) info.memMap) info.kernelStart
    ((info.kernelEnd - info.kernelStart) / 4096 + 1)

/-- The frame of the PML4. -/
def pml4 (m : Mem) (info : BootInfo) : BitVec 64 := (requestPage (beforePaging m info)).1

/-- The PML4 is requested and cleared. -/
def clearedPml4 (m : Mem) (info : BootInfo) : Kernel :=
  let s := ((beforePaging m info).takeFrame bootAllocator).2
  { s with mem := fill s.mem (pml4 m info) 4096 0 }

/-- The framebuffer is locked. -/
def lockFrameBuffer (info : BootInfo) (s : Kernel) : Kernel :=
  lockPages s info.baseAdress ((info.bufferSize + 4096) / 4096 + 1)

/-- The bound of the second loop. -/
def frameBufEnd (info : BootInfo) : BitVec 64 := info.baseAdress + (info.bufferSize + 4096)

variable {m : Mem} {info : BootInfo}

theorem allocInv_beforePaging (m : Mem) (info : BootInfo) :
    AllocInv info.memMap (beforePaging m info) :=
  (AllocInv.init m info.memMap).lockPages _ _

theorem keeps_beforePaging (m : Mem) (info : BootInfo) :
    Keeps (afterInitBitmap m info.memMap) (beforePaging m info) :=
  (keeps_readEfiMemoryMap m info.memMap).trans (keeps_forPages (keeps_takePage .used) _ _ _)

theorem beforePaging_cr3 (m : Mem) (info : BootInfo) :
    (beforePaging m info).cr3 = none ∧ (beforePaging m info).requests = [] := by
  have hkeeps := keeps_beforePaging m info
  have hinit : (afterInitBitmap m info.memMap).cr3 = none ∧
      (afterInitBitmap m info.memMap).requests = [] := by
    unfold afterInitBitmap initBitmap
    refine forInt_induction (P := fun t : Kernel => t.cr3 = none ∧ t.requests = []) ?_ ⟨rfl, rfl⟩
    intro _ _ _ h
    exact h
  exact ⟨hkeeps.cr3.trans hinit.1, hkeeps.requests.trans hinit.2⟩

theorem clearedPml4_cr3 (m : Mem) (info : BootInfo) : (clearedPml4 m info).cr3 = none :=
  (Machine.takeFrame_cr3 bootAllocator _).trans (beforePaging_cr3 m info).1

theorem clearedPml4_requests (m : Mem) (info : BootInfo) :
    (clearedPml4 m info).requests = [nextRequest bootAllocator (beforePaging m info)] := by
  have h := Machine.takeFrame_requests bootAllocator (beforePaging m info)
  rw [(beforePaging_cr3 m info).2] at h
  exact h

/-- The new PML4 has no entries. -/
theorem edge_clearedPml4 (m : Mem) (info : BootInfo) (i : BitVec 9) :
    edge (clearedPml4 m info).mem (pml4 m info) i = none := by
  refine edge_eq_none_of_zero (fun x hx => ?_) i
  unfold clearedPml4 fill
  exact if_pos hx

theorem memset_pml4 (m : Mem) (info : BootInfo) :
    memset ((beforePaging m info).takeFrame bootAllocator).2 (pml4 m info) 0 4096 =
      some (clearedPml4 m info) := by
  have hcr3 : ((beforePaging m info).takeFrame bootAllocator).2.cr3 = none := by
    rw [Machine.takeFrame_cr3, (beforePaging_cr3 m info).1]
  refine memsetLoop_eq_fill (by decide) (fun j _ => Machine.direct_of_cr3_none hcr3 _) ?_
  intro r hr
  rw [hcr3] at hr
  exact absurd hr.symm (Option.some_ne_none r)

/-- `prepare_mem` from the first call of `map_mem` on. -/
theorem prepareMem_boot (m : Mem) (info : BootInfo) : prepareMem (bootKernel m) info =
    (identityLoop ⟨pml4 m info⟩ (fun s => getMemorySize s info.memMap) (2 ^ 52 + 1) 0
      (clearedPml4 m info)).bind fun s =>
        (identityLoop ⟨pml4 m info⟩ (fun s => (frameBufEnd info, s)) (2 ^ 52 + 1) info.baseAdress
          (lockFrameBuffer info s)).map fun s => { s with cr3 := some (pml4 m info) } := by
  have hmemset := memset_pml4 m info
  unfold pml4 beforePaging at hmemset ⊢
  unfold prepareMem
  dsimp only
  refine (congrArg (fun o : Option Kernel => o.bind _) hmemset).trans ?_
  rw [Option.bind_some]
  rfl

/-! ## The two loops -/

/-- `get_memory_size` returns the cached sum. -/
theorem getMemorySize_of_cached {s : Kernel} {memMap : List EfiMemoryDescriptor}
    (h : s.alloc.memSizeBytes = totalMem memMap) :
    getMemorySize s memMap = (totalMem memMap, s) := by
  unfold getMemorySize
  split
  · rw [h]
  next hzero =>
    have h0 : s.alloc.memSizeBytes = 0 := by bv_omega
    have htotal : forEntries memMap (fun desc n => n + desc.numPages * 4096) s.alloc.memSizeBytes =
        s.alloc.memSizeBytes := by
      rw [h0]
      exact h.symm.trans h0
    rw [htotal, h]
    rw [← h]

/-- The header of the bitmap and the cached sum are those of the memory map, and every
frame on the record is among the first `size`. -/
structure Recorded (memMap : List EfiMemoryDescriptor) (s : Kernel) : Prop where
  bitmap : s.alloc.pageBitmap = initialBitmap memMap
  memSize : s.alloc.memSizeBytes = totalMem memMap
  frames : ∀ r ∈ s.requests, frameIndex r.frame < (initialBitmap memMap).size.toNat

/-- A request returns one of the first `size` frames, where `NULL` is frame `0`. -/
theorem Counted.request_eq_mul {source : FrameSource PageFrameAllocator} (hsource : Counted source)
    {s : Kernel} {memMap : List EfiMemoryDescriptor}
    (h : s.alloc.pageBitmap = initialBitmap memMap) :
    ∃ i : BitVec 64, i.toNat < (initialBitmap memMap).size.toNat ∧
      (source.request s).1 = i * 4096 := by
  have hpos : 0 < (initialBitmap memMap).size.toNat := by
    rw [initialBitmap_size]
    exact Nat.succ_pos _
  rcases hsource.frame s with hzero | ⟨index, hindex, heq⟩
  · exact ⟨0, hpos, hzero⟩
  · rw [h] at hindex
    exact ⟨index, hindex, heq⟩

theorem Counted.frameIndex_lt {source : FrameSource PageFrameAllocator} (hsource : Counted source)
    {s : Kernel} {memMap : List EfiMemoryDescriptor}
    (h : s.alloc.pageBitmap = initialBitmap memMap) :
    frameIndex (source.request s).1 < (initialBitmap memMap).size.toNat := by
  have hsize := initialBitmap_size_lt memMap
  obtain ⟨i, hi, heq⟩ := hsource.request_eq_mul h
  rw [heq, frameIndex_mul (by omega)]
  exact hi

theorem Recorded.mapMem {source : FrameSource PageFrameAllocator} (hsource : Counted source)
    {memMap : List EfiMemoryDescriptor} {ptm : PageTableManager} {s s' : Kernel} {v p : BitVec 64}
    (h : Recorded memMap s) (hrun : ptm.mapMem source s v p = some s') : Recorded memMap s' := by
  have hrequest : ∀ t : Kernel,
      t.alloc.pageBitmap = initialBitmap memMap ∧ t.alloc.memSizeBytes = totalMem memMap →
      ((source.request t).2.alloc.pageBitmap = initialBitmap memMap ∧
        (source.request t).2.alloc.memSizeBytes = totalMem memMap) ∧
        frameIndex (source.request t).1 < (initialBitmap memMap).size.toNat := by
    rintro t ⟨hbitmap, hmem⟩
    exact ⟨⟨(hsource.pageBitmap t).trans hbitmap, (hsource.memSizeBytes t).trans hmem⟩,
      hsource.frameIndex_lt hbitmap⟩
  obtain ⟨⟨hbitmap, hmem⟩, hframes⟩ := mapMem_record
    (P := fun a : PageFrameAllocator =>
      a.pageBitmap = initialBitmap memMap ∧ a.memSizeBytes = totalMem memMap)
    (R := fun f => frameIndex f < (initialBitmap memMap).size.toNat) hrequest hrun
    ⟨h.bitmap, h.memSize⟩ h.frames
  exact ⟨hbitmap, hmem, hframes⟩

theorem recorded_clearedPml4 (m : Mem) (info : BootInfo) :
    Recorded info.memMap (clearedPml4 m info) := by
  have halloc := allocInv_beforePaging m info
  have hkeeps := keeps_requestPage (beforePaging m info)
  refine ⟨hkeeps.pageBitmap.trans halloc.bitmap, hkeeps.memSizeBytes.trans halloc.memSize, ?_⟩
  intro r hr
  rw [clearedPml4_requests] at hr
  obtain rfl := List.mem_singleton.mp hr
  exact counted_bootAllocator.frameIndex_lt halloc.bitmap

theorem keeps_lockFrameBuffer (info : BootInfo) (s : Kernel) : Keeps s (lockFrameBuffer info s) :=
  keeps_forPages (keeps_takePage .used) s _ _

theorem Recorded.lockFrameBuffer {s : Kernel} (h : Recorded info.memMap s) :
    Recorded info.memMap (lockFrameBuffer info s) := by
  have hkeeps := keeps_lockFrameBuffer info s
  refine ⟨hkeeps.pageBitmap.trans h.bitmap, hkeeps.memSizeBytes.trans h.memSize, ?_⟩
  rw [hkeeps.requests]
  exact h.frames

/-- The bound of the first loop, which is read again before each call. -/
theorem Recorded.getMemorySize {s : Kernel} (h : Recorded info.memMap s) :
    getMemorySize s info.memMap = (totalMem info.memMap, s) :=
  getMemorySize_of_cached h.memSize

/-- The bound of the second loop is a constant. -/
theorem frameBufEnd_kept (info : BootInfo) (s : Kernel) (_ : Recorded info.memMap s) :
    (fun s : Kernel => (frameBufEnd info, s)) s = (frameBufEnd info, s) := rfl

/-- **The calls of `prepare_mem`.** -/
theorem prepareMem_calls {s' : Kernel} (hrun : prepareMem (bootKernel m) info = some s') :
    ∃ s₁ s₂ memCount fbCount,
      Iterations 0 (totalMem info.memMap) memCount ∧
      mapCalls bootAllocator ⟨pml4 m info⟩ (clearedPml4 m info) (identityCalls memCount 0) =
        some s₁ ∧
      Iterations info.baseAdress (frameBufEnd info) fbCount ∧
      mapCalls bootAllocator ⟨pml4 m info⟩ (lockFrameBuffer info s₁)
        (identityCalls fbCount info.baseAdress) = some s₂ ∧
      Recorded info.memMap s₂ ∧ s' = { s₂ with cr3 := some (pml4 m info) } := by
  rw [prepareMem_boot, Option.bind_eq_some_iff] at hrun
  obtain ⟨s₁, h1, hrun⟩ := hrun
  rw [Option.map_eq_some_iff] at hrun
  obtain ⟨s₂, h2, rfl⟩ := hrun
  obtain ⟨hrec₁, memCount, hmem, hcalls₁⟩ := identityLoop_eq (fun _ hs => hs.getMemorySize)
    (fun _ _ _ hs h => hs.mapMem counted_bootAllocator h) (recorded_clearedPml4 m info) h1
  obtain ⟨hrec₂, fbCount, hfb, hcalls₂⟩ := identityLoop_eq (frameBufEnd_kept info)
    (fun _ _ _ hs h => hs.mapMem counted_bootAllocator h) hrec₁.lockFrameBuffer h2
  exact ⟨s₁, s₂, memCount, fbCount, hmem, hcalls₁, hfb, hcalls₂, hrec₂, rfl⟩

/-- The sum of the descriptors is a number of pages. -/
theorem totalMem_mod (memMap : List EfiMemoryDescriptor) : (totalMem memMap).toNat % 4096 = 0 := by
  unfold totalMem
  refine forEntries_induction (P := fun n : BitVec 64 => n.toNat % 4096 = 0) ?_ rfl
  intro desc n _ hn
  rw [BitVec.toNat_add, BitVec.toNat_mul]
  simp only [BitVec.ofNat_eq_ofNat, BitVec.toNat_ofNat]
  omega

/-- So the first loop ends. -/
theorem totalMem_le (memMap : List EfiMemoryDescriptor) :
    (totalMem memMap).toNat ≤ 2 ^ 64 - 4096 := by
  have hpages := totalMem_mod memMap
  have hlt := (totalMem memMap).isLt
  omega

/-- **`prepare_mem` returns** when the end of the framebuffer leaves room for a page. -/
theorem prepareMem_isSome (m : Mem) (info : BootInfo)
    (hfb : (frameBufEnd info).toNat ≤ 2 ^ 64 - 4096) :
    ∃ s', prepareMem (bootKernel m) info = some s' := by
  have hstep : ∀ (s s' : Kernel) (i : BitVec 64), Recorded info.memMap s →
      (PageTableManager.mk (pml4 m info)).mapMem bootAllocator s i i = some s' →
      Recorded info.memMap s' := fun _ _ _ hs h => hs.mapMem counted_bootAllocator h
  have htotal := totalMem_le info.memMap
  have hfuel : ∀ stop i : BitVec 64, stop.toNat ≤ i.toNat + 4096 * 2 ^ 52 := by
    intro stop i
    have hlt := stop.isLt
    omega
  obtain ⟨s₁, h1⟩ := identityLoop_isSome (fun _ hs => hs.getMemorySize) hstep htotal
    (recorded_clearedPml4 m info)
    (clearedPml4_cr3 m info) (hfuel _ 0)
  obtain ⟨hrec₁, memCount, -, hcalls⟩ := identityLoop_eq (fun _ hs => hs.getMemorySize) hstep
    (recorded_clearedPml4 m info) h1
  have hcr3 : (lockFrameBuffer info s₁).cr3 = none := by
    rw [(keeps_lockFrameBuffer info s₁).cr3, mapCalls_cr3 hcalls, clearedPml4_cr3]
  obtain ⟨s₂, h2⟩ := identityLoop_isSome (frameBufEnd_kept info) hstep hfb hrec₁.lockFrameBuffer
    hcr3
    (hfuel _ info.baseAdress)
  refine ⟨{ s₂ with cr3 := some (pml4 m info) }, ?_⟩
  rw [prepareMem_boot, h1, Option.bind_some, h2, Option.map_some]

/-! ## What holds at the end -/

/-- The page that `prepare_mem` maps the page of `w` to, when it maps it: the address
visited last, in the second loop or else in the first. -/
def LastMapped (info : BootInfo) (w x : BitVec 64) : Prop :=
  LastVisited info.baseAdress (frameBufEnd info) w x ∨
    (∀ y, Visited info.baseAdress (frameBufEnd info) y → ¬ SamePage y w) ∧
      LastVisited 0 (totalMem info.memMap) w x

/-- **The run of `prepare_mem`.**  An invariant that `map_mem` keeps, and that locking the
framebuffer keeps with the walks, holds when the PML4 is loaded; and an address walks to
the page mapped last. -/
theorem prepareMem_run {I : Kernel → Prop} {Ok : Request → Prop} {s' : Kernel}
    {Allowed : BitVec 64 → BitVec 64 → Prop}
    (hM : MapInv bootAllocator (pml4 m info) I Ok Allowed) (hI : I (clearedPml4 m info))
    (hlock : ∀ s, I s → I (lockFrameBuffer info s) ∧
      ∀ w, walk (lockFrameBuffer info s).mem (pml4 m info) w = walk s.mem (pml4 m info) w)
    (hmem : ∀ i, Visited 0 (totalMem info.memMap) i → Allowed i i)
    (hfb : ∀ i, Visited info.baseAdress (frameBufEnd info) i → Allowed i i)
    (hrun : prepareMem (bootKernel m) info = some s') (hOk : ∀ r ∈ s'.requests, Ok r) :
    ∃ s₂, I s₂ ∧ s' = { s₂ with cr3 := some (pml4 m info) } ∧
      ∀ w f, walk s'.mem (pml4 m info) w = some f ↔ ∃ x, LastMapped info w x ∧ frameOf x = f := by
  obtain ⟨s₁, s₂, memCount, fbCount, hmemCount, hcalls₁, hfbCount, hcalls₂, -, rfl⟩ :=
    prepareMem_calls hrun
  have hOk₁ : ∀ r ∈ s₁.requests, Ok r := by
    intro r hr
    rw [← (keeps_lockFrameBuffer info s₁).requests] at hr
    exact hOk r ((mapCalls_suffix hcalls₂).subset hr)
  have hallowed : ∀ {start stop : BitVec 64} {count : ℕ}, Iterations start stop count →
      (∀ i, Visited start stop i → Allowed i i) →
      ∀ c ∈ identityCalls count start, Allowed c.1 c.2 := by
    intro start stop count hcount h c hc
    obtain ⟨j, hj, rfl⟩ := mem_identityCalls.mp hc
    exact h _ (hcount.visited_iff.mpr ⟨j, hj, rfl⟩)
  obtain ⟨hI₁, hwalk₁⟩ := mapCalls_spec hM _ hI (hallowed hmemCount hmem) hcalls₁ hOk₁
  obtain ⟨hIlock, hwalkLock⟩ := hlock s₁ hI₁
  obtain ⟨hI₂, hwalk₂⟩ := mapCalls_spec hM _ hIlock (hallowed hfbCount hfb) hcalls₂ hOk
  refine ⟨s₂, hI₂, rfl, fun w f => ?_⟩
  have hnone : walk (clearedPml4 m info).mem (pml4 m info) w = none := by
    rw [walk, pathOf, descend_cons, edge_clearedPml4]
    rfl
  have hwalk : walk s₂.mem (pml4 m info) w =
      ((lastMapped (identityCalls fbCount info.baseAdress) w).or
        (lastMapped (identityCalls memCount 0) w)).map frameOf := by
    rw [hwalk₂, hwalkLock, hwalk₁, hnone, Option.or_none, Option.map_or]
  show walk s₂.mem (pml4 m info) w = some f ↔ _
  rw [hwalk, Option.map_eq_some_iff]
  refine exists_congr fun x => and_congr_left' ?_
  rw [Option.or_eq_some_iff, hfbCount.lastMapped_iff, hmemCount.lastMapped_iff,
    hfbCount.lastMapped_eq_none_iff]
  rfl

end EtaOs
