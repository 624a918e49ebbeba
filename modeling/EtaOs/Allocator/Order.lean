import EtaOs.Allocator.Evolution
import EtaOs.Allocator.Runs

/-!
# The order of the memory map

Initialisation reads the descriptors in their order, and its result does not depend on it: the
sum of their sizes is commutative, the largest conventional range is the same wherever it
stands, and the frames that are unreserved are those of some descriptor.  The loops count the
descriptors with an `int`, so this needs a map that an `int` can index.

The fold over the map is where the order comes in, and the three facts above are what makes it go
away again: each pass is a fold of a commutative operation, or ends in a value that only depends on
which descriptors there are.  Behind the `2 ^ 31`st descriptor the loops do not look, so there a
permutation can bring in a descriptor that was never read.

* `forEntries_eq_foldl`: the loop over a map is a fold over its first `2 ^ 31` descriptors.
* `LargestConventional`, `largestFreeMemSeg_eq`: the range that the first scan finds.
* `afterUnreserve_perm`: the bitmap after the conventional frames are unreserved.
* `OrderIndependent`, `orderIndependent_iff`: the lengths for which the order does not matter.
-/

namespace EtaOs

open ByteMemory IntLoop

/-! ## The loop over a memory map -/

/-- A fold that looks its values up by index is a fold over the list. -/
theorem foldl_range_getElem {α τ : Type} (l : List α) (f : α → τ → τ) (t : τ) (n : ℕ) :
    (List.range n).foldl (fun t i => match l[i]? with
      | some x => f x t
      | none => t) t = (l.take n).foldl (fun t x => f x t) t := by
  induction n with
  | zero => rfl
  | succ n ih =>
      rw [List.range_succ, List.foldl_append, ih, List.take_add_one, List.foldl_append]
      cases hn : l[n]? <;> simp [hn]

/-- **The loop over a memory map** is a fold over the descriptors that an `int` can index. -/
theorem forEntries_eq_foldl {τ : Type} {memMap : List EfiMemoryDescriptor}
    (hlen : memMap.length < 2 ^ 63) (body : EfiMemoryDescriptor → τ → τ) (t : τ) :
    forEntries memMap body t = (memMap.take (2 ^ 31)).foldl (fun t desc => body desc t) t := by
  have hcount : (BitVec.ofNat 64 memMap.length).toNat = memMap.length := by
    rw [BitVec.toNat_ofNat]
    omega
  rw [forEntries, forInt_eq_foldl (by omega), hcount, List.take_eq_take_min, min_comm,
    ← foldl_range_getElem]
  refine List.foldl_ext _ _ t fun t i hi => ?_
  have hlt := List.mem_range.mp hi
  have hindex : (BitVec.ofNat 32 i).toNat = i := by
    rw [BitVec.toNat_ofNat]
    omega
  rw [hindex]
  cases memMap[i]? <;> rfl

/-- A map that an `int` can index is read to its end. -/
theorem forEntries_eq_foldl_of_le {τ : Type} {memMap : List EfiMemoryDescriptor}
    (hlen : memMap.length ≤ 2 ^ 31) (body : EfiMemoryDescriptor → τ → τ) (t : τ) :
    forEntries memMap body t = memMap.foldl (fun t desc => body desc t) t := by
  rw [forEntries_eq_foldl (by omega), List.take_of_length_le hlen]

/-! ## The sum and the largest range -/

/-- The sum of the sizes does not depend on the order. -/
theorem totalMem_perm {memMap memMap' : List EfiMemoryDescriptor}
    (hlen : memMap.length ≤ 2 ^ 31) (hperm : memMap.Perm memMap') :
    totalMem memMap = totalMem memMap' := by
  rw [totalMem, totalMem, forEntries_eq_foldl_of_le hlen,
    forEntries_eq_foldl_of_le (hperm.length_eq ▸ hlen)]
  refine hperm.foldl_eq' (fun x _ y _ n => ?_) 0
  rw [BitVec.add_assoc, BitVec.add_comm (x.numPages * 4096), BitVec.add_assoc]

/-- The largest conventional range: it has more pages than any other one. -/
structure LargestConventional (memMap : List EfiMemoryDescriptor) (desc : EfiMemoryDescriptor) :
    Prop where
  mem : desc ∈ memMap
  conventional : desc.type = 7
  largest : ∀ e ∈ memMap.erase desc, e.type = 7 → e.numPages.toNat < desc.numPages.toNat

/-- One step of the scan for the largest range. -/
def largerSeg (r : BitVec 64 × BitVec 64) (desc : EfiMemoryDescriptor) : BitVec 64 × BitVec 64 :=
  if desc.type = 7 then
    if desc.numPages * 4096 > r.2 then (desc.physAddr, desc.numPages * 4096) else r
  else r

/-- The size in bytes of a range that is smaller than the address space. -/
theorem toNat_bytes {desc : EfiMemoryDescriptor} (h : desc.numPages.toNat < 2 ^ 52) :
    (desc.numPages * 4096).toNat = desc.numPages.toNat * 4096 := by
  rw [BitVec.toNat_mul]
  show desc.numPages.toNat * 4096 % 2 ^ 64 = _
  omega

/-- Ranges smaller than `n` pages leave a result that is smaller. -/
theorem foldl_largerSeg_lt {n : ℕ} {l : List EfiMemoryDescriptor}
    (hl : ∀ e ∈ l, e.numPages.toNat < 2 ^ 52 ∧ (e.type = 7 → e.numPages.toNat < n))
    {r : BitVec 64 × BitVec 64} (hr : r.2.toNat < n * 4096) :
    (l.foldl largerSeg r).2.toNat < n * 4096 := by
  induction l generalizing r with
  | nil => exact hr
  | cons e l ih =>
      obtain ⟨hbound, hsmall⟩ := hl e List.mem_cons_self
      refine ih (fun e he => hl e (List.mem_cons_of_mem _ he)) ?_
      unfold largerSeg
      split_ifs with h7 hgt
      · show (e.numPages * 4096).toNat < n * 4096
        rw [toNat_bytes hbound]
        have hlt := hsmall h7
        omega
      · exact hr
      · exact hr

/-- A range that no other one exceeds stays the result. -/
theorem foldl_largerSeg_eq {l : List EfiMemoryDescriptor} {r : BitVec 64 × BitVec 64}
    (hl : ∀ e ∈ l, e.type = 7 → ¬ e.numPages * 4096 > r.2) : l.foldl largerSeg r = r := by
  induction l with
  | nil => rfl
  | cons e l ih =>
      have hself : largerSeg r e = r := by
        unfold largerSeg
        split_ifs with h7 hgt
        · exact absurd hgt (hl e List.mem_cons_self h7)
        · rfl
        · rfl
      rw [List.foldl_cons, hself]
      exact ih fun e he => hl e (List.mem_cons_of_mem _ he)

/-- **The scan finds the largest conventional range** wherever it stands. -/
theorem largestFreeMemSeg_eq {memMap : List EfiMemoryDescriptor} {desc : EfiMemoryDescriptor}
    (hlen : memMap.length ≤ 2 ^ 31) (hbound : ∀ e ∈ memMap, e.numPages.toNat < 2 ^ 52)
    (hlargest : LargestConventional memMap desc) (hpos : 0 < desc.numPages.toNat) :
    largestFreeMemSeg memMap = (desc.physAddr, desc.numPages * 4096) := by
  obtain ⟨L, R, hL, rfl, herase⟩ := List.exists_erase_eq hlargest.mem
  have hother := hlargest.largest
  rw [herase] at hother
  have hself := toNat_bytes (hbound desc (by simp))
  have hsmall : ∀ e ∈ L ++ R, e.numPages.toNat < 2 ^ 52 := by
    intro e he
    refine hbound e ?_
    rcases List.mem_append.mp he with he | he
    · exact List.mem_append_left _ he
    · exact List.mem_append_right _ (List.mem_cons_of_mem _ he)
  have hbefore : (L.foldl largerSeg (0, 0)).2.toNat < desc.numPages.toNat * 4096 := by
    refine foldl_largerSeg_lt (fun e he => ?_) ?_
    · have he' := List.mem_append_left R he
      exact ⟨hsmall e he', hother e he'⟩
    · show 0 < desc.numPages.toNat * 4096
      omega
  have htake : largerSeg (L.foldl largerSeg (0, 0)) desc =
      (desc.physAddr, desc.numPages * 4096) := by
    unfold largerSeg
    rw [if_pos hlargest.conventional, if_pos]
    show (L.foldl largerSeg (0, 0)).2.toNat < (desc.numPages * 4096).toNat
    omega
  have hafter : R.foldl largerSeg (desc.physAddr, desc.numPages * 4096) =
      (desc.physAddr, desc.numPages * 4096) := by
    refine foldl_largerSeg_eq fun e he h7 hgt => ?_
    have he' := List.mem_append_right L he
    have hlt := hother e he' h7
    have hgt' : (desc.numPages * 4096).toNat < (e.numPages * 4096).toNat := hgt
    rw [hself, toNat_bytes (hsmall e he')] at hgt'
    omega
  rw [largestFreeMemSeg, forEntries_eq_foldl_of_le hlen]
  show (L ++ desc :: R).foldl largerSeg (0, 0) = _
  rw [List.foldl_append, List.foldl_cons, htake, hafter]

theorem LargestConventional.perm {memMap memMap' : List EfiMemoryDescriptor}
    {desc : EfiMemoryDescriptor} (h : LargestConventional memMap desc)
    (hperm : memMap.Perm memMap') : LargestConventional memMap' desc where
  mem := hperm.mem_iff.mp h.mem
  conventional := h.conventional
  largest := fun e he => h.largest e ((hperm.erase desc).mem_iff.mpr he)

/-! ## The unreserved frames -/

/-- The frames that are unreserved do not depend on the order. -/
theorem released_perm {memMap memMap' : List EfiMemoryDescriptor} (hlen : memMap.length ≤ 2 ^ 31)
    (hperm : memMap.Perm memMap') (k : ℕ) : Released memMap k ↔ Released memMap' k := by
  have hlen' : memMap'.length ≤ 2 ^ 31 := hperm.length_eq ▸ hlen
  unfold Released
  simp only [entryRead_iff hlen, entryRead_iff hlen', hperm.mem_iff]

theorem evolves_afterUnreserve (m : Mem) (memMap : List EfiMemoryDescriptor) :
    Evolves .reserved (afterReserve m memMap) (afterUnreserve m memMap) := by
  refine forEntries_induction (P := fun t => Evolves .reserved (afterReserve m memMap) t) ?_
    (Evolves.refl .reserved _)
  intro desc t _ ht
  split
  · exact ht.trans (Evolves.forPages (Evolves.givePage .reserved) t _ _)
  · exact ht

/-- The kernel before the conventional frames are unreserved depends on the bitmap header and on
the sum of the sizes. -/
theorem afterReserve_congr {memMap memMap' : List EfiMemoryDescriptor} (m : Mem)
    (htotal : totalMem memMap = totalMem memMap')
    (hbitmap : initialBitmap memMap = initialBitmap memMap') :
    afterReserve m memMap = afterReserve m memMap' := by
  unfold afterReserve afterInitBitmap
  rw [htotal, hbitmap]

/-- **The conventional frames may be unreserved in any order.**  Both orders leave the same
marks, and the hint at frame `0`. -/
theorem afterUnreserve_perm {memMap memMap' : List EfiMemoryDescriptor} (m : Mem)
    (hlen : memMap.length ≤ 2 ^ 31) (hperm : memMap.Perm memMap')
    (hbitmap : initialBitmap memMap = initialBitmap memMap') :
    afterUnreserve m memMap = afterUnreserve m memMap' := by
  have htotal := totalMem_perm hlen hperm
  have hstart := afterReserve_congr m htotal hbitmap
  have hfrom := evolves_afterUnreserve m memMap
  have hto := evolves_afterUnreserve m memMap'
  rw [← hstart] at hto
  have hlast : (afterUnreserve m memMap').last = (initialBitmap memMap').last := by
    rw [hto.keeps.last, hstart, (keeps_afterReserve m memMap').last, Machine.last,
      afterInitBitmap_pageBitmap]
  have hsize := initialBitmap_size_lt memMap'
  have hbits := initialBitmap_last memMap'
  have heq := (hto.symm.trans hfrom).eq_withHint (by omega) fun k hk => by
    rw [hlast] at hk
    rw [marked_afterUnreserve hk, marked_afterUnreserve (hbitmap ▸ hk), released_perm hlen hperm]
    unfold LeftOver Swept
    rw [htotal, hbitmap]
  have hhint : (afterUnreserve m memMap).alloc.pageBitmapIndex =
      (afterUnreserve m memMap').alloc.pageBitmapIndex :=
    BitVec.eq_of_toNat_eq
      (afterUnreserve_pageBitmapIndex.trans afterUnreserve_pageBitmapIndex.symm)
  rw [hhint] at heq
  exact heq

/-! ## The whole initialisation -/

/-- The same result of an initialisation: the bitmap and where it is, the search hint, the
counters, and memory with the contents of the bitmap. -/
structure SameInit (s t : Kernel) : Prop where
  pageBitmap : s.alloc.pageBitmap = t.alloc.pageBitmap
  mem : s.mem = t.mem
  pageBitmapIndex : s.alloc.pageBitmapIndex = t.alloc.pageBitmapIndex
  freeMemory : getFreeMem s = getFreeMem t
  usedMemory : getUsedMem s = getUsedMem t
  reservedMemory : getReservedMem s = getReservedMem t

/-- A memory map, of ranges that are smaller than the address space, with one largest
conventional range, which can hold the bitmap. -/
structure HasLargest (memMap : List EfiMemoryDescriptor) : Prop where
  bounded : ∀ desc ∈ memMap, desc.numPages.toNat < 2 ^ 52
  largest : ∃ desc, LargestConventional memMap desc ∧
    (initialBitmap memMap).size.toNat ≤ 4096 * desc.numPages.toNat

/-- **Initialisation does not depend on the order** of the descriptors. -/
def OrderIndependent (memMap : List EfiMemoryDescriptor) : Prop :=
  ∀ (m : Mem) (memMap' : List EfiMemoryDescriptor), memMap.Perm memMap' →
    SameInit (readEfiMemoryMap (bootKernel m) memMap) (readEfiMemoryMap (bootKernel m) memMap')

/-- The bitmap header does not depend on the order. -/
theorem initialBitmap_perm {memMap memMap' : List EfiMemoryDescriptor}
    (hlen : memMap.length ≤ 2 ^ 31) (h : HasLargest memMap) (hperm : memMap.Perm memMap') :
    initialBitmap memMap = initialBitmap memMap' := by
  obtain ⟨desc, hdesc, hholds⟩ := h.largest
  have hpos : 0 < desc.numPages.toNat := by
    have hsize := initialBitmap_size memMap
    omega
  have hbound' : ∀ e ∈ memMap', e.numPages.toNat < 2 ^ 52 := fun e he =>
    h.bounded e (hperm.mem_iff.mpr he)
  unfold initialBitmap
  rw [totalMem_perm hlen hperm, largestFreeMemSeg_eq hlen h.bounded hdesc hpos,
    largestFreeMemSeg_eq (hperm.length_eq ▸ hlen) hbound' (hdesc.perm hperm) hpos]

/-- **A map that an `int` can index** gives the same kernel in any order. -/
theorem readEfiMemoryMap_perm {memMap memMap' : List EfiMemoryDescriptor} (m : Mem)
    (hlen : memMap.length ≤ 2 ^ 31) (h : HasLargest memMap) (hperm : memMap.Perm memMap') :
    readEfiMemoryMap (bootKernel m) memMap = readEfiMemoryMap (bootKernel m) memMap' := by
  have hbitmap := initialBitmap_perm hlen h hperm
  rw [readEfiMemoryMap_boot, readEfiMemoryMap_boot, afterReserveBios, afterReserveBios,
    afterUnreserve_perm m hlen hperm hbitmap, hbitmap]

/-! ## Maps that are too long -/

/-- A map of one page behind `n` empty descriptors, and the same map the other way round. -/
def pageFirst (n : ℕ) : List EfiMemoryDescriptor := ⟨7, 0x100000, 1⟩ :: List.replicate n ⟨0, 0, 0⟩

def pageLast (n : ℕ) : List EfiMemoryDescriptor := List.replicate n ⟨0, 0, 0⟩ ++ [⟨7, 0x100000, 1⟩]

theorem pageFirst_perm (n : ℕ) : (pageFirst n).Perm (pageLast n) :=
  (List.perm_append_singleton _ _).symm

theorem length_pageFirst (n : ℕ) : (pageFirst n).length = n + 1 := by simp [pageFirst]

/-- Empty descriptors change nothing. -/
theorem foldl_replicate_empty {τ : Type} {f : EfiMemoryDescriptor → τ → τ}
    (hf : ∀ t, f ⟨0, 0, 0⟩ t = t) (n : ℕ) (t : τ) :
    (List.replicate n ⟨0, 0, 0⟩).foldl (fun t desc => f desc t) t = t := by
  induction n with
  | zero => rfl
  | succ n ih => rw [List.replicate_succ, List.foldl_cons, hf, ih]

/-- Where the page comes first, the loops read it. -/
theorem forEntries_pageFirst {τ : Type} {f : EfiMemoryDescriptor → τ → τ}
    (hf : ∀ t, f ⟨0, 0, 0⟩ t = t) {n : ℕ} (hn : n < 2 ^ 63 - 1) (t : τ) :
    forEntries (pageFirst n) f t = f ⟨7, 0x100000, 1⟩ t := by
  have hlen := length_pageFirst n
  rw [forEntries_eq_foldl (by omega), pageFirst, List.take_cons (by decide), List.take_replicate,
    List.foldl_cons, foldl_replicate_empty hf]

/-- Where it comes last, behind more descriptors than an `int` can index, they do not. -/
theorem forEntries_pageLast {τ : Type} {f : EfiMemoryDescriptor → τ → τ}
    (hf : ∀ t, f ⟨0, 0, 0⟩ t = t) {n : ℕ} (hn : n < 2 ^ 63 - 1) (hlong : 2 ^ 31 ≤ n) (t : τ) :
    forEntries (pageLast n) f t = t := by
  have hlen := (pageFirst_perm n).length_eq
  rw [length_pageFirst] at hlen
  have hle : 2 ^ 31 ≤ (List.replicate n (⟨0, 0, 0⟩ : EfiMemoryDescriptor)).length := by
    rwa [List.length_replicate]
  rw [forEntries_eq_foldl (by omega), pageLast, List.take_append_of_le_length hle,
    List.take_replicate, foldl_replicate_empty hf]

theorem initialBitmap_pageFirst {n : ℕ} (hn : n < 2 ^ 63 - 1) :
    initialBitmap (pageFirst n) = ⟨1, 0x100000⟩ := by
  have htotal : totalMem (pageFirst n) = 4096 :=
    forEntries_pageFirst (f := fun desc n => n + desc.numPages * 4096) (by simp) hn 0
  have hseg : largestFreeMemSeg (pageFirst n) = (0x100000, 4096) :=
    forEntries_pageFirst (f := fun desc r => largerSeg r desc) (fun _ => rfl) hn (0, 0)
  rw [initialBitmap, htotal, hseg]
  decide

theorem hasLargest_pageFirst {n : ℕ} (hn : n < 2 ^ 63 - 1) : HasLargest (pageFirst n) where
  bounded := by
    intro desc hdesc
    rcases List.mem_cons.mp hdesc with rfl | hdesc
    · decide
    · rw [List.eq_of_mem_replicate hdesc]
      decide
  largest := by
    refine ⟨⟨7, 0x100000, 1⟩, ⟨List.mem_cons_self, rfl, fun e he h7 => ?_⟩, ?_⟩
    · rw [pageFirst, List.erase_cons_head] at he
      rw [List.eq_of_mem_replicate he] at h7
      exact absurd h7 (by decide)
    · rw [initialBitmap_pageFirst hn]
      decide

/-- A map whose only range the loops do not read in another order. -/
theorem not_orderIndependent_pageFirst {n : ℕ} (hn : n < 2 ^ 63 - 1) (hlong : 2 ^ 31 ≤ n) :
    ¬ OrderIndependent (pageFirst n) := by
  intro h
  have hsame := (h (fun _ => 0) (pageLast n) (pageFirst_perm n)).pageBitmap
  have hseg : largestFreeMemSeg (pageLast n) = (0, 0) :=
    forEntries_pageLast (f := fun desc r => largerSeg r desc) (fun _ => rfl) hn hlong (0, 0)
  rw [readEfiMemoryMap_pageBitmap, readEfiMemoryMap_pageBitmap, initialBitmap_pageFirst hn,
    initialBitmap, hseg] at hsame
  have hbuffer : (0x100000 : BitVec 64) = 0 := congrArg Bitmap.buffer hsame
  exact absurd hbuffer (by decide)

/-- **When the order of the descriptors does not matter.**  For every map of `n` descriptors
with one largest conventional range that can hold the bitmap, exactly when an `int` can index
the `n` descriptors. -/
theorem orderIndependent_iff (n : ℕ) (hn : n < 2 ^ 63) :
    (∀ memMap : List EfiMemoryDescriptor, memMap.length = n → HasLargest memMap →
      OrderIndependent memMap) ↔ n ≤ 2 ^ 31 := by
  constructor
  · intro h
    by_contra hlong
    obtain ⟨k, rfl⟩ : ∃ k, n = k + 1 := ⟨n - 1, by omega⟩
    exact not_orderIndependent_pageFirst (by omega) (by omega)
      (h (pageFirst k) (length_pageFirst k) (hasLargest_pageFirst (by omega)))
  · rintro hlen memMap rfl h m memMap' hperm
    have heq := readEfiMemoryMap_perm m hlen h hperm
    rw [heq]
    exact ⟨rfl, rfl, rfl, rfl, rfl, rfl⟩

/-- Memory of 16 MiB in three descriptors, of which the last is the largest conventional one. -/
def threeRanges : List EfiMemoryDescriptor :=
  [⟨7, 0, 0x100⟩, ⟨0, 0x100000, 0x100⟩, ⟨7, 0x200000, 0xe00⟩]

theorem hasLargest_threeRanges : HasLargest threeRanges where
  bounded := by decide
  largest := ⟨⟨7, 0x200000, 0xe00⟩, ⟨by decide, rfl, by decide⟩, by decide +kernel⟩

/-- The map of three descriptors gives the same result in any order. -/
theorem orderIndependent_threeRanges : OrderIndependent threeRanges :=
  (orderIndependent_iff 3 (by decide)).mpr (by decide) threeRanges rfl hasLargest_threeRanges

/-- A map of `2 ^ 31 + 1` descriptors has an order in which its only range is not read. -/
theorem not_orderIndependent_long : ¬ ∀ memMap : List EfiMemoryDescriptor,
    memMap.length < 2 ^ 63 → HasLargest memMap → OrderIndependent memMap := by
  intro hall
  have hlen := length_pageFirst (2 ^ 31)
  exact not_orderIndependent_pageFirst (n := 2 ^ 31) (by decide) (Nat.le_refl _)
    (hall (pageFirst (2 ^ 31)) (by omega) (hasLargest_pageFirst (by decide)))

end EtaOs
