import EtaOs.KernelHeap.Backing
import EtaOs.KernelHeap.Reserved

/-!
# The kernel clears the framebuffer

Between `prepare_mem` and `init_heap` the kernel sets the framebuffer to zero, through the page
tables that have just been loaded.  The framebuffer is memory that nobody else uses: its frames are
beyond the reach of the allocator, or were in use when the kernel was started, so that they are
marked before the first page table is made.

The store is the first one that the kernel makes through its own page tables, and it is a large
one.  Nothing in the code looks whether the framebuffer overlaps the tables that have just been
built; on a real machine it does not, and this is the assumption `ScreenApart`.

* `BootFrame`: the frames that were in use at the start; `keptByBoot`, what `prepare_mem` leaves of
  them.
* `ScreenApart`: the framebuffer is nobody else's.
* `clearScreen_eq`: clearing it does not fault.
* `IdentityInv.clearScreen`, `Held.clearScreen`, `Supply.clearScreen`: what clearing it leaves.
* `screen_cleared`: it changes nothing else.
-/

namespace EtaOs

open ByteMemory IntLoop RadixTree

variable {m : Mem} {info : BootInfo} {f : BitVec 64}

/-! ## Frames in use at the start -/

/-- The frames that are in use when the kernel starts: those of the kernel, those of the low
megabyte, and those that the map has, but no entry of type 7. -/
def BootFrame (info : BootInfo) (k : ℕ) : Prop :=
  LoopFrames info.kernelStart ((info.kernelEnd - info.kernelStart) / 4096 + 1) k ∨ k < 0x100 ∨
    Swept info.memMap k ∧ ¬ Released info.memMap k

/-- They are marked before the page tables are built. -/
theorem marked_of_bootFrame {k : ℕ} (hk : k ≤ (initialBitmap info.memMap).last)
    (h : BootFrame info k) : (beforePaging m info).marked k = true := by
  have hlast := (AllocInv.init m info.memMap).last
  refine (marked_forPages_takePage (hlast ▸ hk)).mpr ?_
  rw [marked_readEfiMemoryMap hk]
  rcases h with hkernel | hlow | ⟨hswept, hreleased⟩
  · exact Or.inr hkernel
  · exact Or.inl (Or.inr (Or.inl hlow))
  · exact Or.inl (Or.inl ⟨Or.inr hswept, hreleased⟩)

/-- The frames of the framebuffer are locked by writing to the bitmap. -/
theorem sameOn_lockFrameBuffer {s : Kernel} (hwf : WellFormedMap info.memMap)
    (hfb : FrameBufInReach info) (hs : AllocInv info.memMap s) (hf : IsFrame f)
    (hnot : ¬ BitmapFrame info.memMap (frameIndex f)) :
    SameOn f 4096 s.mem (lockFrameBuffer info s).mem := by
  intro x hx
  refine forPages_takePage_mem fun k hk hloop => ?_
  rintro rfl
  rw [hs.last] at hk
  rw [hs.bitmap] at hx
  exact byteAddr_notMem hwf hf hnot hk (hfb k hk hloop) hx

/-- A frame that is held is held when the framebuffer is locked. -/
theorem Held.lockFrameBuffer {root : BitVec 64} {s : Kernel} (hwf : WellFormedMap info.memMap)
    (hroot : IsFrame root) (hfb : FrameBufInReach info) (hs : TablesInv info.memMap root s)
    (h : Held info.memMap root m f s) :
    Held info.memMap root m f (EtaOs.lockFrameBuffer info s) where
  frame := h.frame
  inReach := h.inReach
  marked := (marked_forPages_takePage (hs.alloc.le_last h.inReach)).mpr (Or.inl h.marked)
  notTable := fun ht =>
    h.notTable ((table_congr (hs.sameOn_lockPages hwf hroot hfb) f).mp ht)
  notBitmap := h.notBitmap
  same := h.same.trans (sameOn_lockFrameBuffer hwf hfb hs.alloc h.frame h.notBitmap)

/-- **`prepare_mem` holds the frames that are marked before the page tables are built**, with the
contents they have when the PML4 is cleared, and writes to none beyond reach from then on. -/
theorem keptByBoot {s : Kernel} (hwf : WellFormedMap info.memMap) (hfb : FrameBufInReach info)
    (hrun : prepareMem (bootKernel m) info = some s)
    (hOk : ∀ r ∈ s.requests, Granted info.memMap r) :
    (∀ f, IsFrame f → frameIndex f < reach info.memMap →
      (beforePaging m info).marked (frameIndex f) = true →
      ¬ BitmapFrame info.memMap (frameIndex f) →
        pml4 m info ≠ f ∧ Held info.memMap (pml4 m info) (clearedPml4 m info).mem f s) ∧
      SameFar info.memMap (clearedPml4 m info).mem s.mem := by
  have hfirst := hOk _ (mem_requests_pml4 hrun)
  have halloc := allocInv_beforePaging m info
  have htables := tablesInv_clearedPml4 hwf hfirst
  obtain ⟨hroot, hfree, -, -⟩ := halloc.request_frame hfirst
  let B := {f | IsFrame f ∧ frameIndex f < reach info.memMap ∧
    (beforePaging m info).marked (frameIndex f) = true ∧
      ¬ BitmapFrame info.memMap (frameIndex f)}
  have hne : ∀ f ∈ B, pml4 m info ≠ f := by
    rintro f ⟨-, -, hmark, -⟩ rfl
    exact absurd (hmark.symm.trans hfree) (by decide)
  have hstart : ∀ f ∈ B,
      Held info.memMap (pml4 m info) (clearedPml4 m info).mem f (clearedPml4 m info) := by
    intro f hfB
    have ⟨hf, hreach, hmark, hnot⟩ := hfB
    refine ⟨hf, hreach, ?_, fun ht => ?_, hnot, SameOn.refl _ _ _⟩
    · rw [(alloc_clearedPml4 hwf hfirst).2 _ hreach]
      exact (marked_requestPage halloc.hint (halloc.le_last hreach)).mpr (Or.inl hmark)
    · exact hne f hfB ((isTable_of_root_empty (edge_clearedPml4 m info)).mp ht).symm
  have hM := mapInv_far (m := (clearedPml4 m info).mem) hwf
    (mapInv_held (m := (clearedPml4 m info).mem) hwf (mapInv_boot hwf hroot) (fun _ hI => hI.1) B)
      fun _ hI => hI.1.1
  obtain ⟨s₂, ⟨⟨-, hheld⟩, hfar⟩, rfl, -⟩ := prepareMem_run hM
    ⟨⟨⟨htables, clearedPml4_cr3 m info⟩, hstart⟩, SameFar.refl _ _⟩
    (fun s hs => ⟨⟨⟨⟨hs.1.1.1.lockPages hwf hroot hfb,
      (keeps_lockFrameBuffer info s).cr3.trans hs.1.1.2⟩,
      fun g hg => (hs.1.2 g hg).lockFrameBuffer hwf hroot hfb hs.1.1.1⟩,
      hs.2.trans fun g hg _ hnot => sameOn_lockFrameBuffer hwf hfb hs.1.1.1.alloc hg hnot⟩,
      walk_congr (hs.1.1.1.sameOn_lockPages hwf hroot hfb)⟩)
    (fun _ _ => trivial) (fun _ _ => trivial) hrun hOk
  refine ⟨fun f hf hreach hmark hnot => ?_, hfar⟩
  have hfB : f ∈ B := ⟨hf, hreach, hmark, hnot⟩
  obtain ⟨-, -, hmarked, htable, -, hsame⟩ := hheld f hfB
  exact ⟨hne f hfB, hf, hreach, hmarked, htable, hnot, hsame⟩

/-! ## The framebuffer -/

/-- The bytes of a frame lie in it. -/
theorem frame_add {f d : BitVec 64} (hf : IsFrame f) (hd : d.toNat < 4096) :
    frameOf (f + d) = f ∧ frameIndex (f + d) = frameIndex f := by
  obtain ⟨haligned, hbelow⟩ := hf
  have hval : (f + d).toNat = f.toNat + d.toNat := by bv_omega
  refine ⟨BitVec.eq_of_toNat_eq ?_, ?_⟩
  · rw [frameOf_toNat (by omega), hval]
    omega
  · rw [frameIndex_eq, frameIndex_eq, hval]
    omega

/-- A byte of the framebuffer. -/
def ScreenByte (info : BootInfo) (x : Addr) : Prop :=
  (x - info.baseAdress).toNat < info.bufferSize.toNat

/-- **The framebuffer is nobody else's**: its frames were in use at the start or are beyond the
reach of the allocator, and hold no part of the bitmap. -/
def ScreenApart (info : BootInfo) : Prop :=
  ∀ x, ScreenByte info x → ¬ BitmapFrame info.memMap (frameIndex x) ∧
    (BootFrame info (frameIndex x) ∨ reach info.memMap ≤ frameIndex x)

/-- `memset(framebuffer->base_adress, 0, framebuffer->buffer_size)` of `init_kernel`. -/
def clearScreen (info : BootInfo) (s : Kernel) : Option Kernel :=
  memset s info.baseAdress 0 info.bufferSize

/-- Memory with a framebuffer of zeros. -/
def clearedMemory (info : BootInfo) (m : Mem) : Mem :=
  fill m info.baseAdress info.bufferSize.toNat 0

/-- The kernel with a framebuffer of zeros. -/
def screenCleared (info : BootInfo) (s : Kernel) : Kernel :=
  { s with mem := clearedMemory info s.mem }

/-- Clearing the framebuffer makes no request. -/
theorem clearScreen_requests {s s' : Kernel} (h : clearScreen info s = some s') :
    s'.requests = s.requests := (memsetLoop_requests h).1

section Clear

variable {s : Kernel} (hwf : WellFormedMap info.memMap) (hfb : FrameBufInReach info)
  (hsize : (totalMem info.memMap).toNat ≤ 2 ^ 48)
  (hend : info.baseAdress.toNat + info.bufferSize.toNat + 4096 ≤ 2 ^ 48)
  (hscreen : ScreenApart info) (hrun : prepareMem (bootKernel m) info = some s)
  (hOk : ∀ r ∈ s.requests, Granted info.memMap r)

include hwf hfb hscreen hrun hOk

/-- No table is in the framebuffer. -/
theorem not_table_screen (t x : BitVec 64) (ht : Table s.mem (pml4 m info) t)
    (hx : ScreenByte info x) : ¬ (x - t).toNat < 4096 := by
  intro hin
  obtain ⟨hroot, -, htables, -⟩ := prepareMem_tables hwf hfb hrun hOk
  obtain ⟨hnot, hused⟩ := hscreen x hx
  have hframe := isFrame_of_table hroot ht
  have hindex : frameIndex x = frameIndex t := by
    have hd := (frame_add hframe hin).2
    rwa [add_sub_cancel] at hd
  rw [hindex] at hnot hused
  obtain ⟨hreach, -, -⟩ := htables.tables t ht
  rcases hused with hboot | hfar
  · have hlast := initialBitmap_last info.memMap
    have hmark := marked_of_bootFrame (m := m) (by unfold reach at hreach; omega) hboot
    obtain ⟨hkept, -⟩ := keptByBoot hwf hfb hrun hOk
    exact (hkept t hframe hreach hmark hnot).2.notTable ht
  · omega

include hsize hend

omit hscreen in
/-- The framebuffer is mapped to itself. -/
theorem direct_screen {x : BitVec 64} (hx : ScreenByte info x) : s.Direct x := by
  obtain ⟨-, hcr3, -, hwalk⟩ := prepareMem_tables hwf hfb hrun hOk
  unfold ScreenByte at hx
  have hsum : x.toNat = info.baseAdress.toNat + (x - info.baseAdress).toNat := by bv_omega
  have hindex := frameIndex_eq x
  have htouched : TouchedByFrameBuf info (frameIndex x) := ⟨x, hx, rfl⟩
  have hpage := pageAddress_toNat (k := frameIndex x) (by omega)
  have hself := (hwalk _ _).mpr ((mappedToItself_iff_of_lt hsize (visited_frameBuf_lt hend)
    (by omega)).mpr (Or.inr (htouched.inLoop hend)))
  refine direct_of_walk hcr3 ⟨by omega, by omega⟩ hself ?_
  bv_omega

/-- **Clearing the framebuffer does not fault**, and clears it. -/
theorem clearScreen_eq : clearScreen info s = some (screenCleared info s) := by
  obtain ⟨-, hcr3, -, -⟩ := prepareMem_tables hwf hfb hrun hOk
  have hlt := info.bufferSize.isLt
  have hbyte : ∀ i < info.bufferSize.toNat,
      ScreenByte info (info.baseAdress + BitVec.ofNat 64 i) := by
    intro i hi
    unfold ScreenByte
    rw [add_sub_cancel_left, BitVec.toNat_ofNat]
    omega
  by_cases hempty : info.bufferSize.toNat = 0
  · have hmem : clearedMemory info s.mem = s.mem := by
      funext x
      unfold clearedMemory fill
      rw [hempty]
      exact if_neg (Nat.not_lt_zero _)
    unfold clearScreen screenCleared memset
    rw [hempty, hmem]
    rfl
  refine memsetLoop_eq_fill (by omega)
    (fun i hi => direct_screen hwf hfb hsize hend hrun hOk (hbyte i hi)) fun root hroot t ht => ?_
  -- no table begins in the framebuffer, and the framebuffer begins in no table
  obtain rfl := Option.some.inj (hcr3.symm.trans hroot)
  constructor
  · by_contra hin
    have hstart : ScreenByte info t := by
      unfold ScreenByte
      omega
    exact not_table_screen hwf hfb hscreen hrun hOk t _ ht hstart (by simp)
  · have hfirst := hbyte 0 (by omega)
    rw [BitVec.add_zero] at hfirst
    exact Nat.not_lt.mp (not_table_screen hwf hfb hscreen hrun hOk t _ ht hfirst)

end Clear

/-! ## What clearing it leaves -/

/-- Outside the framebuffer memory is as it was. -/
theorem clearedMemory_of_not {x : Addr} (hx : ¬ ScreenByte info x) :
    clearedMemory info m x = m x := if_neg hx

/-- Bytes that agree do so when the framebuffer has been cleared. -/
theorem sameOn_clearedMemory {a : Addr} {n : ℕ} {m m' : Mem} (h : SameOn a n m m') :
    SameOn a n (clearedMemory info m) (clearedMemory info m') := by
  intro x hx
  unfold clearedMemory fill
  rw [h x hx]

theorem SameFar.clearScreen {memMap : List EfiMemoryDescriptor} {m m' : Mem}
    (h : SameFar memMap m m') : SameFar memMap (clearedMemory info m) (clearedMemory info m') :=
  fun f hf hfar hnot => sameOn_clearedMemory (h f hf hfar hnot)

section Cleared

variable {s : Kernel} {root : BitVec 64} (hwf : WellFormedMap info.memMap)
  (hscreen : ScreenApart info)

include hwf hscreen in
/-- The marks within reach stay, as the bitmap is not in the framebuffer. -/
theorem marked_screenCleared (hs : AllocInv info.memMap s) {k : ℕ} (hk : k < reach info.memMap) :
    (screenCleared info s).marked k = s.marked k := by
  have halloc : (screenCleared info s).alloc = s.alloc := rfl
  refine marked_congr halloc (clearedMemory_of_not fun hin => ?_)
  rw [hs.bitmap] at hin
  have hlt : k < 2 ^ 34 := lt_of_lt_of_le hk (Nat.min_le_right _ _)
  have hlast := initialBitmap_last info.memMap
  have hle := hs.le_last hk
  rw [hs.last] at hle
  exact (hscreen _ hin).1 (bitmapFrame_of_lt hwf (j := k / 8) (by omega) (by omega))

variable (htable : ∀ t x, Table s.mem root t → ScreenByte info x → ¬ (x - t).toNat < 4096)

include htable

theorem sameOn_table_screenCleared (t : BitVec 64) (ht : Table s.mem root t) :
    SameOn t 4096 s.mem (screenCleared info s).mem :=
  fun x hx => clearedMemory_of_not fun hin => htable t x ht hin hx

/-- A pointer denotes what it has denoted. -/
theorem phys_screenCleared (hcr3 : s.cr3 = some root) (x : Addr) :
    (screenCleared info s).phys x = s.phys x := by
  have hcr3' : (screenCleared info s).cr3 = s.cr3 := rfl
  refine Machine.phys_congr hcr3' (fun r hr => ?_) x
  obtain rfl := Option.some.inj (hcr3.symm.trans hr)
  exact sameOn_table_screenCleared htable

include hwf hscreen

theorem TablesInv.clearScreen (h : TablesInv info.memMap root s) :
    TablesInv info.memMap root (screenCleared info s) := by
  have hmark : ∀ k < reach info.memMap, (screenCleared info s).marked k = s.marked k :=
    fun _ hk => marked_screenCleared hwf hscreen h.alloc hk
  exact h.of_sameOn (h.alloc.congr rfl hmark) (sameOn_table_screenCleared htable) rfl
    fun k hk hm => (hmark k hk).trans hm

theorem IdentityInv.clearScreen (h : IdentityInv info.memMap root s) :
    IdentityInv info.memMap root (screenCleared info s) :=
  h.of_walk (h.tables.clearScreen hwf hscreen htable) rfl
    fun k _ => walk_congr (sameOn_table_screenCleared htable) (pageAddress k)

/-- A frame that is held stays held, and what the framebuffer has of it is cleared. -/
theorem Held.clearScreen (hs : AllocInv info.memMap s) (h : Held info.memMap root m f s) :
    Held info.memMap root (clearedMemory info m) f (screenCleared info s) :=
  { h.of_sameOn (sameOn_table_screenCleared htable) fun _ hk =>
      marked_screenCleared hwf hscreen hs hk with
    same := sameOn_clearedMemory h.same }

theorem Supply.clearScreen {S : Finset (List (BitVec 9))} {L : ℕ → Prop} [DecidablePred L] {n : ℕ}
    (h : Supply info.memMap root S L n s) :
    Supply info.memMap root S L n (screenCleared info s) :=
  h.of_sameOn (h.tables.clearScreen hwf hscreen htable) (sameOn_table_screenCleared htable)
    fun _ hk => marked_screenCleared hwf hscreen h.tables.alloc hk

end Cleared

/-! ## The result -/

/-- **The kernel clears the framebuffer and nothing else.**  When `prepare_mem` has returned and no
request has returned `NULL`, the call of `memset` in `init_kernel` does not fault; every byte of the
framebuffer is loaded as zero, every other byte of memory is as it was, and so are the marks of the
allocator and the meaning of every pointer. -/
theorem screen_cleared {s : Kernel} (hwf : WellFormedMap info.memMap) (hfb : FrameBufInReach info)
    (hsize : (totalMem info.memMap).toNat ≤ 2 ^ 48)
    (hend : info.baseAdress.toNat + info.bufferSize.toNat + 4096 ≤ 2 ^ 48)
    (hscreen : ScreenApart info) (hrun : prepareMem (bootKernel m) info = some s)
    (hnull : ∀ r ∈ s.requests, r.frame ≠ 0) :
    ∃ s', clearScreen info s = some s' ∧
      (∀ x, ScreenByte info x → s'.load8 x = some 0) ∧
      (∀ x, ¬ ScreenByte info x → s'.mem x = s.mem x) ∧
      (∀ k < reach info.memMap, s'.marked k = s.marked k) ∧ ∀ x, s'.phys x = s.phys x := by
  obtain ⟨-, -, hrec, hid⟩ :=
    loadedInv_of_ne_zero hwf hfb hsize (visited_frameBuf_lt hend) hrun hnull
  have hOk := hrec.granted hsize hnull
  have htable := not_table_screen hwf hfb hscreen hrun hOk
  have hphys := phys_screenCleared htable hid.cr3
  refine ⟨screenCleared info s, clearScreen_eq hwf hfb hsize hend hscreen hrun hOk,
    fun x hx => ?_, fun _ hx => clearedMemory_of_not hx,
    fun _ hk => marked_screenCleared hwf hscreen hid.tables.alloc hk, hphys⟩
  have hdirect : (screenCleared info s).Direct x :=
    (hphys x).trans (direct_screen hwf hfb hsize hend hrun hOk hx)
  have hzero : (screenCleared info s).mem x = 0 := if_pos hx
  rw [Machine.load8, hdirect, Option.map_some, hzero]

/-- The framebuffer at 12 MiB is beyond the reach of the allocator. -/
theorem screenApart_sixteenMegabytes : ScreenApart (sixteenMegabytes 0x100000) := by
  have hbase : (0x100000 : BitVec 64) = 0 ∨ (0x100000 : BitVec 64) = 0x100000 := Or.inr rfl
  intro x hx
  have hoffset : (x - 0xc00000).toNat < (0x1000 : BitVec 64).toNat := hx
  have hlo : 0xc00000 ≤ x.toNat := by bv_omega
  have hindex := frameIndex_eq x
  refine ⟨fun hbitmap => ?_, Or.inr ?_⟩
  · have hle := bitmapFrame_sixteenMegabytes hbase hbitmap
    have hbound : (0x100000 : BitVec 64).toNat = 0x100000 := rfl
    omega
  · rw [reach_sixteenMegabytes hbase]
    omega

/-- With 16 MiB of memory and a page of framebuffer, the last byte of the page is zero and the next
is as it was. -/
theorem screen_cleared_sixteenMegabytes : ∃ s s' : Kernel,
    prepareMem (bootKernel fun _ => 1) (sixteenMegabytes 0x100000) = some s ∧
      clearScreen (sixteenMegabytes 0x100000) s = some s' ∧ s'.load8 0xc00fff = some 0 ∧
      s'.mem 0xc01000 = s.mem 0xc01000 := by
  have hbase : (0x100000 : BitVec 64) = 0 ∨ (0x100000 : BitVec 64) = 0x100000 := Or.inr rfl
  obtain ⟨s, hrun, hsupply⟩ := prepareMem_sixteenMegabytes (fun _ => 1) hbase (Nat.zero_le _)
  obtain ⟨s', hclear, hzero, hsame, -, -⟩ := screen_cleared (sixteenMegabytes_wellFormed hbase)
    (frameBufInReach_sixteenMegabytes hbase)
    ((totalMem_sixteenMegabytes_le hbase).trans (by decide)) (by decide)
    screenApart_sixteenMegabytes hrun fun r hr => (hsupply.tables.given r hr).2.1
  refine ⟨s, s', hrun, hclear, hzero _ ?_, hsame _ ?_⟩
  · show (0xc00fff - 0xc00000 : BitVec 64).toNat < (0x1000 : BitVec 64).toNat
    decide
  · show ¬ (0xc01000 - 0xc00000 : BitVec 64).toNat < (0x1000 : BitVec 64).toNat
    decide

end EtaOs
