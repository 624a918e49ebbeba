import EtaOs.Allocator.Requests

/-!
# The marks after `read_efi_memory_map`

Initialisation makes five passes over the memory map and the bitmap.  Their effect on
the mark of frame `k` is stated in terms of the input:

* `LeftOver m memMap k`: `init_bitmap` leaves a bit of old memory set;
* `Swept memMap k`: `reserve_pages(0, mem_size / 4096 + 1)` marks the frame;
* `Released memMap k`: a type 7 descriptor that is read has it in its loop;
* `k < 0x100`: `reserve_pages(0, 0x100)` marks it;
* `BitmapFrame memMap k`: `lock_pages` marks it for the bitmap.

`marked_readEfiMemoryMap` puts these together, and `loopFrames_iff` says which frames a
range loop visits while the product of its counter fits an `int`.

Whatever happens to the allocator later starts from these marks, so every condition on a memory map
in this development is a statement about the five predicates.  They are kept apart because the
passes undo each other in part: the second marks all of memory, the third releases what is
conventional, and the last two mark again what must not be handed out.
-/

namespace EtaOs

open ByteMemory IntLoop

/-! ## The frames of a range loop -/

theorem pageOffset_of_lt {i : BitVec 32} (h : i.toNat < 2 ^ 19) :
    ((i * 4096).signExtend 64).toNat = 4096 * i.toNat := by
  have hmul : (i * 4096).toNat = 4096 * i.toNat := by
    rw [BitVec.toNat_mul]
    simp only [BitVec.ofNat_eq_ofNat, BitVec.toNat_ofNat]
    omega
  rw [signExtend_of_lt (by omega), hmul]

/-- The product of a counter from `2 ^ 19` on wraps around an `int`. -/
theorem pageOffset_eq (i : BitVec 32) :
    ((i * 4096).signExtend 64).toNat =
      if i.toNat % 2 ^ 20 < 2 ^ 19 then 4096 * (i.toNat % 2 ^ 20)
      else 2 ^ 64 - 2 ^ 32 + 4096 * (i.toNat % 2 ^ 20) := by
  have hmul : (i * 4096).toNat = 4096 * (i.toNat % 2 ^ 20) := by
    rw [BitVec.toNat_mul]
    simp only [BitVec.ofNat_eq_ofNat, BitVec.toNat_ofNat]
    omega
  split
  next h => rw [signExtend_of_lt (by omega), hmul]
  next h => rw [signExtend_of_ge (by omega), hmul]

/-- **A range loop whose products fit an `int` visits its range.** -/
theorem loopFrames_iff {addr pageCount : BitVec 64} (hcount : pageCount.toNat ≤ 2 ^ 19)
    (haddr : addr.toNat + 4096 * pageCount.toNat ≤ 2 ^ 64) {k : ℕ} :
    LoopFrames addr pageCount k ↔
      addr.toNat / 4096 ≤ k ∧ k < addr.toNat / 4096 + pageCount.toNat := by
  have hpage : ∀ i : BitVec 32, i.toNat < pageCount.toNat →
      frameIndex (pageAt addr i) = addr.toNat / 4096 + i.toNat := by
    intro i hi
    have hoff := pageOffset_of_lt (i := i) (by omega)
    rw [frameIndex_eq, pageAt, BitVec.toNat_add, hoff]
    omega
  constructor
  · rintro ⟨i, hi, rfl⟩
    have hlt := hi.lt
    rw [hpage i hlt]
    omega
  · rintro ⟨hge, hlt⟩
    have hi : (BitVec.ofNat 32 (k - addr.toNat / 4096)).toNat = k - addr.toNat / 4096 := by
      rw [BitVec.toNat_ofNat]
      omega
    refine ⟨BitVec.ofNat 32 (k - addr.toNat / 4096), iter_of_lt ?_ ?_, ?_⟩
    · omega
    · omega
    · rw [hpage _ (by omega), hi]
      omega

/-- The loop from address `0` over any number of frames: the counter never reaches a
frame from `2 ^ 19` on, other than at the top of the address space. -/
theorem loopFrames_zero_iff {pageCount : BitVec 64} {k : ℕ} (hk : k < 2 ^ 51) :
    LoopFrames 0 pageCount k ↔ k < pageCount.toNat ∧ k < 2 ^ 19 := by
  have hpage : ∀ i : BitVec 32,
      frameIndex (pageAt 0 i) = ((i * 4096).signExtend 64).toNat / 4096 := by
    intro i
    rw [frameIndex_eq, pageAt, zero_add]
  constructor
  · rintro ⟨i, hi, rfl⟩
    have hlt := hi.lt
    have hoff := pageOffset_eq i
    rw [hpage] at hk ⊢
    split at hoff <;> omega
  · rintro ⟨hlt, hsmall⟩
    have hi : (BitVec.ofNat 32 k).toNat = k := by
      rw [BitVec.toNat_ofNat]
      omega
    refine ⟨BitVec.ofNat 32 k, iter_of_lt (by omega) (by omega), ?_⟩
    rw [hpage, pageOffset_of_lt (by omega), hi]
    omega

/-! ## Loops over the memory map -/

/-- The loop over the memory map reads the descriptor. -/
def EntryRead (memMap : List EfiMemoryDescriptor) (desc : EfiMemoryDescriptor) : Prop :=
  ∃ i, Iter (BitVec.ofNat 64 memMap.length) i ∧ memMap[i.toNat]? = some desc

theorem EntryRead.mem {memMap : List EfiMemoryDescriptor} {desc : EfiMemoryDescriptor}
    (h : EntryRead memMap desc) : desc ∈ memMap := by
  obtain ⟨i, -, hi⟩ := h
  exact List.mem_of_getElem? hi

/-- A memory map that an `int` can index is read to its end. -/
theorem entryRead_iff {memMap : List EfiMemoryDescriptor} {desc : EfiMemoryDescriptor}
    (h : memMap.length ≤ 2 ^ 31) : EntryRead memMap desc ↔ desc ∈ memMap := by
  refine ⟨EntryRead.mem, fun hmem => ?_⟩
  obtain ⟨n, hn⟩ := List.mem_iff_getElem?.mp hmem
  have hlt : n < memMap.length := (List.getElem?_eq_some_iff.mp hn).1
  have hi : (BitVec.ofNat 32 n).toNat = n := by
    rw [BitVec.toNat_ofNat]
    omega
  refine ⟨BitVec.ofNat 32 n, iter_of_lt ?_ (by omega), by rwa [hi]⟩
  rw [hi, BitVec.toNat_ofNat]
  omega

theorem forEntries_induction {τ : Type} {memMap : List EfiMemoryDescriptor}
    {body : EfiMemoryDescriptor → τ → τ} {P : τ → Prop}
    (hbody : ∀ desc t, desc ∈ memMap → P t → P (body desc t)) {t : τ} (ht : P t) :
    P (forEntries memMap body t) := by
  refine forInt_induction (fun i t _ h => ?_) ht
  cases hi : memMap[i.toNat]? with
  | none => exact h
  | some desc => exact hbody desc t (List.mem_of_getElem? hi) h

/-- The accumulation rule of a loop over the memory map. -/
theorem forEntries_iff {τ : Type} (memMap : List EfiMemoryDescriptor)
    {f : EfiMemoryDescriptor → τ → τ} {I Q : τ → Prop} {H : EfiMemoryDescriptor → Prop}
    (hI : ∀ desc t, I t → I (f desc t))
    (hQ : ∀ desc t, I t → (Q (f desc t) ↔ Q t ∨ H desc)) {t : τ} (ht : I t) :
    Q (forEntries memMap f t) ↔ Q t ∨ ∃ desc, EntryRead memMap desc ∧ H desc := by
  unfold forEntries
  refine (forInt_iff (I := I) (H := fun i => ∃ desc, memMap[i.toNat]? = some desc ∧ H desc)
    ?_ ?_ ht).trans (or_congr_right ⟨?_, ?_⟩)
  · intro i t _ h
    cases memMap[i.toNat]? with
    | none => exact h
    | some desc => exact hI desc t h
  · intro i t _ h
    cases memMap[i.toNat]? with
    | none => simp
    | some desc => simpa using hQ desc t h
  · rintro ⟨i, hi, desc, hdesc, hhit⟩
    exact ⟨desc, ⟨i, hi, hdesc⟩, hhit⟩
  · rintro ⟨desc, ⟨i, hi, hdesc⟩, hhit⟩
    exact ⟨i, hi, desc, hdesc, hhit⟩

/-! ## The passes of the initialisation -/

/-- The sum of the sizes of the descriptors, as `get_memory_size` computes it. -/
def totalMem (memMap : List EfiMemoryDescriptor) : BitVec 64 :=
  forEntries memMap (fun desc n => n + desc.numPages * 4096) 0

/-- The number of frames of a memory map, as the kernel computes it. -/
def totalFrames (memMap : List EfiMemoryDescriptor) : ℕ := (totalMem memMap).toNat / 4096

/-- The bitmap header that `read_efi_memory_map` makes. -/
def initialBitmap (memMap : List EfiMemoryDescriptor) : Bitmap :=
  ⟨totalMem memMap / 4096 / 8 + 1, (largestFreeMemSeg memMap).1⟩

/-- The kernel after `init_bitmap`. -/
def afterInitBitmap (m : Mem) (memMap : List EfiMemoryDescriptor) : Kernel :=
  initBitmap
    { mem := m
      cr3 := none
      requests := []
      alloc := ⟨⟨0, 0⟩, 0, totalMem memMap, 0, 0, true, totalMem memMap⟩ }
    (initialBitmap memMap).size (initialBitmap memMap).buffer

/-- The kernel after every frame is reserved. -/
def afterReserve (m : Mem) (memMap : List EfiMemoryDescriptor) : Kernel :=
  reservePages (afterInitBitmap m memMap) 0 (totalMem memMap / 4096 + 1)

/-- The kernel after the conventional frames are unreserved. -/
def afterUnreserve (m : Mem) (memMap : List EfiMemoryDescriptor) : Kernel :=
  forEntries memMap
    (fun desc s => if desc.type = 7 then unreservePages s desc.physAddr desc.numPages else s)
    (afterReserve m memMap)

/-- The kernel after the low megabyte is reserved. -/
def afterReserveBios (m : Mem) (memMap : List EfiMemoryDescriptor) : Kernel :=
  reservePages (afterUnreserve m memMap) 0 0x100

/-- `init_bitmap` leaves bit `k` set: it was set before and its byte is not cleared. -/
def LeftOver (m : Mem) (memMap : List EfiMemoryDescriptor) (k : ℕ) : Prop :=
  (initialBitmap memMap).marked m k = true ∧
    ¬ (k / 8 < (initialBitmap memMap).size.toNat ∧ k / 8 < 2 ^ 31)

/-- The first call of `reserve_pages` marks frame `k`. -/
def Swept (memMap : List EfiMemoryDescriptor) (k : ℕ) : Prop :=
  LoopFrames 0 (totalMem memMap / 4096 + 1) k

/-- The loop of `unreserve_pages` for some type 7 descriptor visits frame `k`. -/
def Released (memMap : List EfiMemoryDescriptor) (k : ℕ) : Prop :=
  ∃ desc, EntryRead memMap desc ∧ desc.type = 7 ∧ LoopFrames desc.physAddr desc.numPages k

/-- Frame `k` is locked for the bitmap. -/
def BitmapFrame (memMap : List EfiMemoryDescriptor) (k : ℕ) : Prop :=
  LoopFrames (initialBitmap memMap).buffer ((initialBitmap memMap).size / 4096 + 1) k

/-- The mark that initialisation gives frame `k`. -/
def InitMarked (m : Mem) (memMap : List EfiMemoryDescriptor) (k : ℕ) : Prop :=
  (LeftOver m memMap k ∨ Swept memMap k) ∧ ¬ Released memMap k ∨
    k < 0x100 ∨ BitmapFrame memMap k

theorem totalFrames_lt (memMap : List EfiMemoryDescriptor) : totalFrames memMap < 2 ^ 52 := by
  have h := (totalMem memMap).isLt
  rw [totalFrames]
  omega

theorem toNat_totalMem_div (memMap : List EfiMemoryDescriptor) :
    (totalMem memMap / 4096).toNat = totalFrames memMap := by
  simp [totalFrames]

/-- The bitmap has one byte for eight frames, and one more. -/
theorem initialBitmap_size (memMap : List EfiMemoryDescriptor) :
    (initialBitmap memMap).size.toNat = totalFrames memMap / 8 + 1 := by
  have h := totalFrames_lt memMap
  have hdiv : (totalMem memMap / 4096 / 8).toNat = totalFrames memMap / 8 := by
    rw [BitVec.toNat_udiv, toNat_totalMem_div]
    rfl
  rw [initialBitmap, BitVec.toNat_add, hdiv]
  simp only [BitVec.ofNat_eq_ofNat, BitVec.toNat_ofNat]
  omega

theorem initialBitmap_size_lt (memMap : List EfiMemoryDescriptor) :
    (initialBitmap memMap).size.toNat < 2 ^ 50 := by
  have h := totalFrames_lt memMap
  rw [initialBitmap_size]
  omega

theorem initialBitmap_last (memMap : List EfiMemoryDescriptor) :
    (initialBitmap memMap).last = 8 * (initialBitmap memMap).size.toNat := by
  have h := initialBitmap_size_lt memMap
  rw [Bitmap.last, BitVec.toNat_mul]
  simp only [BitVec.ofNat_eq_ofNat, BitVec.toNat_ofNat]
  omega

variable (m : Mem) (memMap : List EfiMemoryDescriptor)

/-! ## Clearing the bitmap -/

theorem afterInitBitmap_alloc : (afterInitBitmap m memMap).alloc =
    ⟨initialBitmap memMap, 0, totalMem memMap, 0, 0, true, totalMem memMap⟩ := by
  rw [afterInitBitmap, initBitmap]
  refine forInt_induction (P := fun t : Kernel => t.alloc =
    ⟨initialBitmap memMap, 0, totalMem memMap, 0, 0, true, totalMem memMap⟩) ?_ ?_
  · intro _ _ _ h
    exact h
  · rfl

theorem afterInitBitmap_pageBitmap :
    (afterInitBitmap m memMap).alloc.pageBitmap = initialBitmap memMap := by
  rw [afterInitBitmap_alloc]

/-- The bits left set by `init_bitmap`. -/
theorem marked_afterInitBitmap {k : ℕ} (hk : k ≤ (initialBitmap memMap).last) :
    (afterInitBitmap m memMap).marked k = true ↔ LeftOver m memMap k := by
  have hlast := initialBitmap_last memMap
  have hsize := initialBitmap_size_lt memMap
  -- an iteration clears the byte of bit `k` or leaves it alone
  have hrule := forInt_iff (n := (initialBitmap memMap).size)
    (f := fun i (s : Kernel) =>
      { s with mem := store8 s.mem (s.alloc.pageBitmap.buffer + i.signExtend 64) 0 })
    (I := fun t : Kernel => t.alloc.pageBitmap = initialBitmap memMap)
    (Q := fun t : Kernel => ¬ t.marked k = true)
    (H := fun i => (initialBitmap memMap).buffer + i.signExtend 64 =
      (initialBitmap memMap).byteAddr k)
    (fun _ _ _ h => h) ?_
    (s := { mem := m
            cr3 := none
            requests := []
            alloc := ⟨initialBitmap memMap, 0, totalMem memMap, 0, 0, true, totalMem memMap⟩ })
    rfl
  · have hhit : (∃ i, Iter (initialBitmap memMap).size i ∧
        (initialBitmap memMap).buffer + i.signExtend 64 = (initialBitmap memMap).byteAddr k) ↔
        k / 8 < (initialBitmap memMap).size.toNat ∧ k / 8 < 2 ^ 31 := by
      constructor
      · rintro ⟨i, hi, heq⟩
        have hi' := (iter_iff_of_le (by omega)).mp hi
        have hcancel : i.signExtend 64 = BitVec.ofNat 64 (k / 8) :=
          (BitVec.add_right_inj _).mp heq
        have hnat := congrArg BitVec.toNat hcancel
        rw [signExtend_of_lt hi'.2, BitVec.toNat_ofNat] at hnat
        omega
      · rintro ⟨h1, h2⟩
        have hi : (BitVec.ofNat 32 (k / 8)).toNat = k / 8 := by
          rw [BitVec.toNat_ofNat]
          omega
        refine ⟨BitVec.ofNat 32 (k / 8), iter_of_lt (by omega) (by omega), ?_⟩
        rw [Bitmap.byteAddr]
        congr 1
        apply BitVec.eq_of_toNat_eq
        rw [signExtend_of_lt (by omega), hi, BitVec.toNat_ofNat]
        omega
    rw [hhit, ← not_iff_not, not_or, not_not, not_not] at hrule
    exact hrule
  · intro i t _ ht
    simp only [Machine.marked, Bitmap.marked, store8, ht]
    by_cases heq : (initialBitmap memMap).byteAddr k =
      (initialBitmap memMap).buffer + i.signExtend 64
    · simp [heq]
    · simp [heq, Ne.symm heq]

/-! ## The later passes -/

theorem keeps_afterReserve : Keeps (afterInitBitmap m memMap) (afterReserve m memMap) :=
  keeps_forPages (keeps_takePage .reserved) _ _ _

theorem keeps_afterUnreserve : Keeps (afterReserve m memMap) (afterUnreserve m memMap) := by
  refine forEntries_induction (P := fun t => Keeps (afterReserve m memMap) t) ?_ (Keeps.refl _)
  intro desc t _ ht
  split
  · exact ht.trans (keeps_forPages (keeps_givePage .reserved) _ _ _)
  · exact ht

theorem keeps_afterReserveBios : Keeps (afterUnreserve m memMap) (afterReserveBios m memMap) :=
  keeps_forPages (keeps_takePage .reserved) _ _ _

/-- The passes after `init_bitmap` keep the bitmap header and everything outside it. -/
theorem keeps_init : Keeps (afterInitBitmap m memMap) (afterReserveBios m memMap) :=
  ((keeps_afterReserve m memMap).trans (keeps_afterUnreserve m memMap)).trans
    (keeps_afterReserveBios m memMap)

/-- `read_efi_memory_map` at power-on, as its last pass. -/
theorem readEfiMemoryMap_boot : readEfiMemoryMap (bootKernel m) memMap =
    lockPages (afterReserveBios m memMap) (initialBitmap memMap).buffer
      ((initialBitmap memMap).size / 4096 + 1) := by
  have hb := (keeps_init m memMap).pageBitmap.trans (afterInitBitmap_pageBitmap m memMap)
  rw [← hb]
  rfl

theorem keeps_readEfiMemoryMap :
    Keeps (afterInitBitmap m memMap) (readEfiMemoryMap (bootKernel m) memMap) := by
  rw [readEfiMemoryMap_boot]
  exact (keeps_init m memMap).trans (keeps_forPages (keeps_takePage .used) _ _ _)

theorem readEfiMemoryMap_pageBitmap :
    (readEfiMemoryMap (bootKernel m) memMap).alloc.pageBitmap = initialBitmap memMap :=
  (keeps_readEfiMemoryMap m memMap).pageBitmap.trans (afterInitBitmap_pageBitmap m memMap)

variable {m memMap}

theorem marked_afterReserve {k : ℕ} (hk : k ≤ (initialBitmap memMap).last) :
    (afterReserve m memMap).marked k = true ↔ LeftOver m memMap k ∨ Swept memMap k := by
  have hlast : k ≤ (afterInitBitmap m memMap).last := by
    rwa [Machine.last, afterInitBitmap_pageBitmap]
  rw [afterReserve, reservePages, reservePage, marked_forPages_takePage hlast,
    marked_afterInitBitmap m memMap hk]
  rfl

theorem marked_afterUnreserve {k : ℕ} (hk : k ≤ (initialBitmap memMap).last) :
    (afterUnreserve m memMap).marked k = true ↔
      (LeftOver m memMap k ∨ Swept memMap k) ∧ ¬ Released memMap k := by
  have hbody : ∀ (desc : EfiMemoryDescriptor) (t : Kernel),
      t.alloc.pageBitmap = initialBitmap memMap →
      (if desc.type = 7 then unreservePages t desc.physAddr desc.numPages else t).alloc.pageBitmap =
        initialBitmap memMap := by
    intro desc t ht
    split
    · exact (keeps_forPages (keeps_givePage .reserved) t _ _).pageBitmap.trans ht
    · exact ht
  -- the pass can only switch the absence of the mark on
  have hrule := forEntries_iff memMap
    (f := fun desc s =>
      if desc.type = 7 then unreservePages s desc.physAddr desc.numPages else s)
    (I := fun t : Kernel => t.alloc.pageBitmap = initialBitmap memMap)
    (Q := fun t : Kernel => ¬ t.marked k = true)
    (H := fun desc => desc.type = 7 ∧ LoopFrames desc.physAddr desc.numPages k) hbody ?_
    (t := afterReserve m memMap)
    ((keeps_afterReserve m memMap).pageBitmap.trans (afterInitBitmap_pageBitmap m memMap))
  · rw [← not_iff_not, not_and_or, not_not, ← marked_afterReserve hk]
    exact hrule
  · intro desc t ht
    have hlast : k ≤ t.last := by rwa [Machine.last, ht]
    by_cases h7 : desc.type = 7
    · simp only [h7, if_true, true_and]
      rw [unreservePages, unreservePage, marked_forPages_givePage hlast, not_and_or, not_not]
    · simp only [h7, if_false, false_and, or_false]

theorem loopFrames_bios {k : ℕ} : LoopFrames 0 0x100 k ↔ k < 0x100 := by
  rw [loopFrames_iff (by decide) (by decide)]
  simp

/-- **The marks after initialisation**, in terms of the memory map and of the memory
found at power-on. -/
theorem marked_readEfiMemoryMap {k : ℕ} (hk : k ≤ (initialBitmap memMap).last) :
    (readEfiMemoryMap (bootKernel m) memMap).marked k = true ↔ InitMarked m memMap k := by
  have hUnreserve : k ≤ (afterUnreserve m memMap).last := by
    rwa [(keeps_afterUnreserve m memMap).last, (keeps_afterReserve m memMap).last, Machine.last,
      afterInitBitmap_pageBitmap]
  have hBios : k ≤ (afterReserveBios m memMap).last := by
    rwa [(keeps_afterReserveBios m memMap).last]
  rw [readEfiMemoryMap_boot, lockPages, lockPage, marked_forPages_takePage hBios, afterReserveBios,
    reservePages, reservePage, marked_forPages_takePage hUnreserve, marked_afterUnreserve hk,
    loopFrames_bios, or_assoc]
  rfl

/-- The hint invariant holds after initialisation. -/
theorem hintInv_readEfiMemoryMap : HintInv (readEfiMemoryMap (bootKernel m) memMap) := by
  have htake : ∀ account (t : Kernel) addr, HintInv t → HintInv (takePage account t addr) :=
    fun account t addr ht => ht.takePage account addr
  have hgive : ∀ account (t : Kernel) addr, HintInv t → HintInv (givePage account t addr) :=
    fun account t addr ht => ht.givePage account addr
  have h0 : HintInv (afterInitBitmap m memMap) := by
    refine ⟨?_, ?_, ?_⟩
    · rw [afterInitBitmap_pageBitmap]
      exact initialBitmap_size_lt memMap
    · rw [afterInitBitmap_alloc]
      exact Nat.zero_le _
    · intro k hk
      rw [afterInitBitmap_alloc] at hk
      exact absurd hk (Nat.not_lt_zero k)
  have h1 : HintInv (afterReserve m memMap) := h0.forPages (htake .reserved) _ _
  have h2 : HintInv (afterUnreserve m memMap) := by
    refine forEntries_induction (P := HintInv) ?_ h1
    intro desc t _ ht
    split
    · exact ht.forPages (hgive .reserved) _ _
    · exact ht
  have h3 : HintInv (afterReserveBios m memMap) := h2.forPages (htake .reserved) _ _
  rw [readEfiMemoryMap_boot]
  exact h3.forPages (htake .used) _ _

/-- Taking frames does not move the hint. -/
theorem forPages_takePage_pageBitmapIndex (account : Account) (s : Kernel)
    (addr pageCount : BitVec 64) :
    (forPages (takePage account) s addr pageCount).alloc.pageBitmapIndex =
      s.alloc.pageBitmapIndex := by
  refine forInt_induction
    (P := fun t : Kernel => t.alloc.pageBitmapIndex = s.alloc.pageBitmapIndex) ?_ rfl
  intro i t _ ht
  exact (takePage_pageBitmapIndex account t (pageAt addr i)).trans ht

/-- The hint is still at frame `0` after the conventional frames are unreserved. -/
theorem afterUnreserve_pageBitmapIndex :
    (afterUnreserve m memMap).alloc.pageBitmapIndex.toNat = 0 := by
  have hgive : ∀ (s : Kernel) addr pageCount, s.alloc.pageBitmapIndex.toNat = 0 →
      (unreservePages s addr pageCount).alloc.pageBitmapIndex.toNat = 0 := by
    intro s addr pageCount hs
    refine forInt_induction (P := fun t : Kernel => t.alloc.pageBitmapIndex.toNat = 0) ?_ hs
    intro i t _ ht
    exact Nat.le_zero.mp ((givePage_pageBitmapIndex .reserved t (pageAt addr i)).trans ht.le)
  refine forEntries_induction (P := fun t : Kernel => t.alloc.pageBitmapIndex.toNat = 0) ?_ ?_
  · intro desc t _ ht
    split
    · exact hgive t _ _ ht
    · exact ht
  · show (forPages (takePage .reserved) _ _ _).alloc.pageBitmapIndex.toNat = 0
    rw [forPages_takePage_pageBitmapIndex, afterInitBitmap_alloc]
    rfl

/-- The scan starts at frame `0` after initialisation. -/
theorem readEfiMemoryMap_pageBitmapIndex :
    (readEfiMemoryMap (bootKernel m) memMap).alloc.pageBitmapIndex.toNat = 0 := by
  rw [readEfiMemoryMap_boot]
  show (forPages (takePage .used) (forPages (takePage .reserved) (afterUnreserve m memMap)
    0 0x100) _ _).alloc.pageBitmapIndex.toNat = 0
  rw [forPages_takePage_pageBitmapIndex, forPages_takePage_pageBitmapIndex]
  exact afterUnreserve_pageBitmapIndex

end EtaOs
