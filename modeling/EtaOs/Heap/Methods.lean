import EtaOs.Heap.Segments

/-!
# The methods of a header on the list of segments

What `split`, `extend_heap`, `init_heap` and `free` do to the list that the heap shows, for
the calls in which nothing is merged.

Each method is first described by the stores it makes, and then by the list.  The second
description needs the heap to show a list before the call, which is the invariant of all runs; the
first does not, and it serves the statements about arbitrary heaps.

* `SameHeap`: the globals that the methods leave alone.
* `split_null`, `split_globals`, `split_sameOn`, `header_split`: the two ways `split` can end.
* `Represents.split`: a segment becomes two.
* `Represents.extend`: a free segment follows the last one.
* `Represents.release`: a segment is freed between neighbours in use.
* `represents_initHeap`: the heap starts as one free segment.
-/

namespace EtaOs

open ByteMemory HeapSegHeader LinkedList Tiling

/-! ## The globals -/

/-- The heap is not extended: its bounds and the frames taken stay. -/
structure SameHeap (h h' : Heap) : Prop where
  heapStart : h'.heapStart = h.heapStart
  heapEnd : h'.heapEnd = h.heapEnd
  taken : h'.taken = h.taken

theorem SameHeap.refl (h : Heap) : SameHeap h h := ⟨rfl, rfl, rfl⟩

theorem SameHeap.trans {h h' h'' : Heap} (h₁ : SameHeap h h') (h₂ : SameHeap h' h'') :
    SameHeap h h'' :=
  ⟨h₂.heapStart.trans h₁.heapStart, h₂.heapEnd.trans h₁.heapEnd, h₂.taken.trans h₁.taken⟩

theorem combineForward_sameHeap (a : Addr) (h : Heap) : SameHeap h (combineForward a h) := by
  unfold combineForward
  split_ifs <;> exact ⟨rfl, rfl, rfl⟩

theorem combineBackward_sameHeap (a : Addr) (h : Heap) : SameHeap h (combineBackward a h) := by
  unfold combineBackward
  split_ifs
  · exact combineForward_sameHeap _ h
  · exact SameHeap.refl h

theorem free_sameHeap (p : Addr) (h : Heap) : SameHeap h (free p h) := by
  have hset : SameHeap h { h with mem := HeapSegHeader.setFree h.mem (p - 32) true } :=
    ⟨rfl, rfl, rfl⟩
  exact (hset.trans (combineForward_sameHeap (p - 32) _)).trans (combineBackward_sameHeap _ _)

variable {h : Heap} {L R : List Segment} {s : Segment}

/-! ## `split` -/

/-- Nothing is split off when one of the two parts is too small. -/
theorem split_null {h : Heap} {a : Addr} {r : BitVec 64}
    (hsmall : r < 0x10 ∨ (length h.mem a - r - 32).slt 0x10) : split a r h = (0, h) := by
  unfold split
  by_cases hr : r < 0x10
  · exact if_pos hr
  · simp only [hr, hsmall.resolve_left hr, if_true, if_false]

/-- The result of a `split` that is made, and the globals after it. -/
theorem split_globals {h : Heap} {a : Addr} {r : BitVec 64} (hr : ¬ r < 0x10)
    (hpos : ¬ (length h.mem a - r - 32).slt 0x10) :
    (split a r h).1 = a + r + 32 ∧ SameHeap h (split a r h).2 ∧
      (split a r h).2.lastHeader = if h.lastHeader = a then a + r + 32 else h.lastHeader := by
  unfold split
  simp only [hr, hpos, Bool.false_eq_true, if_false, and_true, true_and]
  exact ⟨rfl, rfl, rfl⟩

theorem split_sameHeap (this : Addr) (splitLength : BitVec 64) (h : Heap) :
    SameHeap h (split this splitLength h).2 := by
  by_cases hsmall : splitLength < 0x10 ∨ (length h.mem this - splitLength - 32).slt 0x10
  · rw [split_null hsmall]
    exact SameHeap.refl h
  · obtain ⟨hr, hpos⟩ := not_or.mp hsmall
    exact (split_globals hr hpos).2.1

/-- **Frame rule.**  Apart from its two headers, `split` only stores the `last` link of the
header behind. -/
theorem split_sameOn {h : Heap} {a b x : Addr} {r : BitVec 64} {k : ℕ} (hr : ¬ r < 0x10)
    (hpos : ¬ (length h.mem a - r - 32).slt 0x10) (hb : b = a + r + 32) (hax : Apart a 32 x k)
    (hbx : Apart b 32 x k) : SameOn x k (setLast h.mem (next h.mem a) b) (split a r h).2.mem := by
  unfold split
  simp only [← hb, hr, hpos, Bool.false_eq_true, if_false]
  -- the stores from the last one back to the second
  refine SameOn.trans ?_ (sameOn_setLength hax _)
  refine SameOn.trans ?_ (sameOn_setFree hbx _)
  refine SameOn.trans ?_ (sameOn_setLength hbx _)
  refine SameOn.trans ?_ (sameOn_setLast (apart_lastField hbx) _)
  refine SameOn.trans ?_ (sameOn_setNext hax _)
  exact sameOn_setNext hbx _

/-- **The headers after `split`**, for a header at `a`, a new one at `b`, and `n` behind them. -/
theorem header_split {h : Heap} {a b n : Addr} {r rem : BitVec 64} (hr : ¬ r < 0x10)
    (hrem : rem = length h.mem a - r - 32) (hpos : ¬ rem.slt 0x10) (hb : b = a + r + 32)
    (hn : next h.mem a = n) (hab : Apart a 32 b 32) (hna : Apart (n + 16) 8 a 32) :
    header (split a r h).2.mem a = { header h.mem a with length := r, next := b } ∧
      header (split a r h).2.mem b = ⟨rem, n, a, HeapSegHeader.free h.mem a⟩ := by
  have hnext : (header h.mem a).next = n := hn
  have hba := hab.symm
  have hba' := apart_lastField hba
  unfold split
  simp only [← hrem, ← hb, hn, hr, hpos, Bool.false_eq_true, if_false]
  constructor
  · simp only [header_setLength_self, header_setFree hba, header_setLength hba,
      header_setLast hba', header_setNext_self, header_setNext hba, header_setLast hna]
  · simp only [next_eq, free_eq, header_setLength hab, header_setFree_self, header_setLength_self,
      header_setLast_self, header_setNext hab, header_setNext_self, header_setLength hba,
      header_setLast hba', header_setNext hba, header_setLast hna, hnext]

/-- The new header lies in the segment that is split. -/
theorem Segment.within_split {r : BitVec 64} (hfits : r.toNat + 48 ≤ s.length.toNat)
    (hend : s.hi < 2 ^ 64) : s.Within (s.addr + r + 32) 32 := by
  unfold Segment.hi at hend
  have hb : (s.addr + r + 32).toNat = s.addr.toNat + 32 + r.toNat := by bv_omega
  unfold Segment.Within Segment.lo Segment.hi
  omega

/-- **The other segments** see of a `split` only the `last` link behind it. -/
theorem Represents.split_others (hr : Represents h (L ++ s :: R)) {r : BitVec 64}
    (hr16 : ¬ r < 0x10) (hfits : r.toNat + 48 ≤ s.length.toNat)
    (hpos : ¬ (s.length - r - 32).slt 0x10) {t : Segment} (ht : t ∈ L ++ R) :
    SameOn t.addr (32 + t.length.toNat) (setLast h.mem (behind R) (s.addr + r + 32))
      (EtaOs.HeapSegHeader.split s.addr r h).2.mem := by
  have hs : s ∈ L ++ s :: R := by simp
  have hend : s.hi < 2 ^ 64 := Nat.lt_of_le_of_lt (hr.bounds hs).2 h.heapEnd.isLt
  have hin := Segment.within_split hfits hend
  rw [← hr.next_eq_behind]
  exact split_sameOn hr16 ((hr.fields s hs).1 ▸ hpos) rfl
    (hr.apart_other ht s.within_header t.within_self) (hr.apart_other ht hin t.within_self)

/-- The segments that are not next to a `split` keep their bytes. -/
theorem Represents.split_kept (hr : Represents h (L ++ s :: R)) {r : BitVec 64}
    (hr16 : ¬ r < 0x10) (hfits : r.toNat + 48 ≤ s.length.toNat)
    (hpos : ¬ (s.length - r - 32).slt 0x10) {t : Segment} (ht : t ∈ L ++ R.tail) :
    SameOn t.addr (32 + t.length.toNat) h.mem (EtaOs.HeapSegHeader.split s.addr r h).2.mem := by
  have hlast := hr.apart_behind (mem_of_mem_rest ht) t.within_self
  exact (sameOn_setLast hlast _).trans (hr.split_others hr16 hfits hpos (mem_of_mem_tail_rest ht))

/-- The segment behind a `split` keeps its bytes but for its `last` link. -/
theorem Represents.split_relinked (hr : Represents h (L ++ s :: R)) {r : BitVec 64}
    (hr16 : ¬ r < 0x10) (hfits : r.toNat + 48 ≤ s.length.toNat)
    (hpos : ¬ (s.length - r - 32).slt 0x10) {t : Segment} (ht : t ∈ R.head?) :
    SameOn t.addr (32 + t.length.toNat) (setLast h.mem t.addr (s.addr + r + 32))
      (EtaOs.HeapSegHeader.split s.addr r h).2.mem := by
  cases R with
  | nil => exact absurd ht (by simp)
  | cons u R =>
      obtain rfl : u = t := by simpa using ht
      exact hr.split_others hr16 hfits hpos (by simp)

/-- **A segment becomes two**, with the flag of the first. -/
theorem Represents.split (hr : Represents h (L ++ s :: R)) {r : BitVec 64} (hr16 : ¬ r < 0x10)
    (hfits : r.toNat + 48 ≤ s.length.toNat) (hpos : ¬ (s.length - r - 32).slt 0x10) :
    Represents (split s.addr r h).2
      (L ++ ⟨s.addr, r, s.free⟩ :: ⟨s.addr + r + 32, s.length - r - 32, s.free⟩ :: R) := by
  have hs : s ∈ L ++ s :: R := by simp
  obtain ⟨hlen, hfree⟩ := hr.fields s hs
  have hhi := (hr.bounds hs).2
  have hend := h.heapEnd.isLt
  obtain ⟨-, hsame, hlast⟩ := split_globals (a := s.addr) hr16 (hlen ▸ hpos)
  have hb : (s.addr + r + 32).toNat = s.addr.toNat + 32 + r.toNat := by bv_omega
  have hrem : (s.length - r - 32).toNat = s.length.toNat - r.toNat - 32 := by bv_omega
  have hab : Apart s.addr 32 (s.addr + r + 32) 32 :=
    ByteMemory.apart_of_le (by decide) (by omega) (by omega)
  obtain ⟨hsa, hsb⟩ := header_split hr16 (hlen ▸ rfl) hpos rfl hr.next_eq_behind hab
    (hr.apart_behind (t := s) (by simp) s.within_header)
  have hnew : Tiles Segment.lo Segment.hi s.lo
      [⟨s.addr, r, s.free⟩, ⟨s.addr + r + 32, s.length - r - 32, s.free⟩] s.hi := by
    refine ⟨rfl, ?_, ?_, ?_, ?_⟩ <;> simp only [tiles_nil, Segment.lo, Segment.hi] <;> omega
  have htiles := hr.tiles.replace hnew
  rw [List.append_assoc] at htiles
  refine hr.insert rfl ?_ ?_ ?_ ?_ hsame.heapStart hlast (hsame.heapEnd ▸ htiles)
  · rw [hsa, ← hfree]
    rfl
  · rw [hsb, ← hfree]
  · intro t ht
    have hrelinked := (hr.split_relinked hr16 hfits hpos ht).mono (b := t.addr) (k := 32) (by simp)
    exact (header_congr hrelinked).trans (header_setLast_self h.mem t.addr _)
  · intro t ht
    exact header_congr ((hr.split_kept hr16 hfits hpos ht).mono (by simp))

/-! ## `extend_heap` -/

/-- A number of bytes rounded up to whole pages. -/
def pagesUp (n : ℕ) : ℕ := (n + 4095) / 4096 * 4096

theorem pagesUp_spec (n : ℕ) : n ≤ pagesUp n ∧ pagesUp n < n + 4096 ∧ pagesUp n % 4096 = 0 := by
  unfold pagesUp
  omega

/-- A request for at least one byte takes a page. -/
theorem page_le_pagesUp {n : ℕ} (hpos : 0 < n) : 4096 ≤ pagesUp n := by
  obtain ⟨hge, -, hmod⟩ := pagesUp_spec n
  omega

/-- A request that leaves room for the rounding. -/
theorem pagesUp_lt {n : ℕ} (hn : n ≤ 2 ^ 64 - 4096) : pagesUp n < 2 ^ 64 := by
  obtain ⟨-, hup, hmod⟩ := pagesUp_spec n
  omega

/-- The rounding of `extend_heap` does not wrap for a heap that stays in the address space. -/
theorem pageRoundUp_toNat {r : BitVec 64} (hfit : pagesUp r.toNat < 2 ^ 64) :
    (pageRoundUp r).toNat = pagesUp r.toNat := by
  have hmod : (r % 0x1000).toNat = r.toNat % 4096 := BitVec.toNat_umod
  unfold pageRoundUp
  unfold pagesUp at hfit ⊢
  split_ifs with hr
  · have hpos : r.toNat % 4096 ≠ 0 := fun h0 => hr (BitVec.eq_of_toNat_eq (hmod.trans h0))
    have hunit : (0x1000 : BitVec 64).toNat = 4096 := rfl
    rw [BitVec.toNat_add, BitVec.toNat_sub, hmod, hunit]
    omega
  · have h0 : r.toNat % 4096 = 0 := by
      rw [← hmod, not_not.mp hr]
      rfl
    omega

/-- The number of pages that `extend_heap` maps. -/
theorem pageCount_toNat {len : BitVec 64} (hfit : pagesUp len.toNat < 2 ^ 64) :
    (pageRoundUp len / 0x1000).toNat = pagesUp len.toNat / 4096 := by
  have hunit : (0x1000 : BitVec 64).toNat = 4096 := rfl
  rw [BitVec.toNat_udiv, pageRoundUp_toNat hfit, hunit]

/-- These pages make up the rounded length. -/
theorem pageCount_eq {r : BitVec 64} (hfit : pagesUp r.toNat < 2 ^ 64) :
    4096 * (pageRoundUp r / 0x1000).toNat = pagesUp r.toNat := by
  obtain ⟨-, -, hmod⟩ := pagesUp_spec r.toNat
  rw [pageCount_toNat hfit]
  omega

/-- The pages of the extension leave the headers alone that end below them. -/
theorem header_growLoop {n : ℕ} {x : Addr} (hfit : h.heapEnd.toNat + 4096 * n < 2 ^ 64)
    (hx : x.toNat + 32 ≤ pageStart h.heapEnd) :
    header (growLoop n h).mem x = header h.mem x := by
  rw [growLoop_eq]
  refine header_congr fun y hy => (mapPages_spec n h.heapEnd h hfit).1 y ?_
  have hend := h.heapEnd.isLt
  have hle := pageStart_le h.heapEnd
  bv_omega

/-- The globals after the loop of `extend_heap`. -/
theorem growLoop_globals {n : ℕ} (hfit : h.heapEnd.toNat + 4096 * n < 2 ^ 64) :
    (growLoop n h).heapStart = h.heapStart ∧ (growLoop n h).lastHeader = h.lastHeader ∧
      (growLoop n h).heapEnd.toNat = h.heapEnd.toNat + 4096 * n := by
  obtain ⟨-, hstart, -, hlast⟩ := mapPages_spec n h.heapEnd h hfit
  rw [growLoop_eq]
  refine ⟨hstart, hlast, ?_⟩
  show (h.heapEnd + 4096 * BitVec.ofNat 64 n).toNat = _
  bv_omega

/-- **The stores of `extend_heap`** around a last header `z`, before the merge. -/
theorem header_extend {m : Mem} {z b : Addr} (hzb : Apart z 32 b 32) (len : BitVec 64) :
    let m' := setLength (setNext (setNext (setLast (setFree m b true) b z) z b) b 0) b len
    header m' z = { header m z with next := b } ∧ header m' b = ⟨len, 0, z, true⟩ ∧
      ∀ x, Apart z 32 x 32 → Apart b 32 x 32 → header m' x = header m x := by
  have hbz := hzb.symm
  refine ⟨?_, ?_, fun x hzx hbx => ?_⟩
  · simp only [header_setLength hbz, header_setNext hbz, header_setNext_self,
      header_setLast (apart_lastField hbz), header_setFree hbz]
  · simp only [header_setLength_self, header_setNext_self, header_setNext hzb,
      header_setLast_self, header_setFree_self]
  · simp only [header_setLength hbx, header_setNext hbx, header_setNext hzx,
      header_setLast (apart_lastField hbx), header_setFree hbx]

/-- `extend_heap` of the virtual heap behind its loop, before the merge. -/
def linkedLast (newSegment : Addr) (length : BitVec 64) (h : Heap) : Heap :=
  let m := HeapSegHeader.setFree h.mem newSegment true
  let m := setLast m newSegment h.lastHeader
  let m := setNext m h.lastHeader newSegment
  let m := setNext m newSegment 0
  let m := setLength m newSegment (length - 32)
  { h with mem := m, lastHeader := newSegment }

/-- The new header has the old last one before it, and nothing behind it. -/
theorem header_linkedLast {b : Addr} (len : BitVec 64) (hapart : Apart h.lastHeader 32 b 32) :
    header (linkedLast b len h).mem h.lastHeader = { header h.mem h.lastHeader with next := b } ∧
      header (linkedLast b len h).mem b = ⟨len - 32, 0, h.lastHeader, true⟩ := by
  obtain ⟨hlast, hnew, -⟩ := header_extend (m := h.mem) hapart (len - 32)
  unfold linkedLast
  exact ⟨hlast, hnew⟩

theorem extendHeap_eq (length : BitVec 64) (h : Heap) : extendHeap length h =
    combineBackward h.heapEnd (linkedLast h.heapEnd (pageRoundUp length)
      (growLoop (pageRoundUp length / 0x1000).toNat h)) := rfl

/-- The heap with the new segment behind the last one, before `extend_heap` merges it. -/
def appendSegment (length : BitVec 64) (h : Heap) : Heap :=
  linkedLast h.heapEnd (pageRoundUp length) (growLoop (pageRoundUp length / 0x1000).toNat h)

/-- A header of the heap lies below the page of an aligned `heap_end`. -/
theorem Represents.below_pageStart {segs : List Segment} (hr : Represents h segs) (hs : s ∈ segs)
    (haligned : h.heapEnd.toNat % 4096 = 0) : s.addr.toNat + 32 ≤ pageStart h.heapEnd := by
  have hbound := (hr.bounds hs).2
  unfold pageStart
  omega

/-- **A free segment behind the last one**, when the heap stays in the address space and no
header lies in the page of `heap_end`.  The headers before the last one stay. -/
theorem Represents.appended {r : BitVec 64} (hr : Represents h (L ++ [s]))
    (hpos : 0 < r.toNat) (hfit : h.heapEnd.toNat + pagesUp r.toNat < 2 ^ 64)
    (hpage : s.addr.toNat + 32 ≤ pageStart h.heapEnd) :
    Represents (appendSegment r h)
        (L ++ s :: [⟨h.heapEnd, BitVec.ofNat 64 (pagesUp r.toNat - 32), true⟩]) ∧
      ∀ t ∈ L, header (appendSegment r h).mem t.addr = header h.mem t.addr := by
  have hround := pageRoundUp_toNat (r := r) (by omega)
  have hge := page_le_pagesUp hpos
  have hcount := pageCount_eq (r := r) (by omega)
  have hlen : pageRoundUp r - 32 = BitVec.ofNat 64 (pagesUp r.toNat - 32) := by bv_omega
  unfold appendSegment linkedLast
  generalize hn : (pageRoundUp r / 0x1000).toNat = n at hcount
  have hfit' : h.heapEnd.toNat + 4096 * n < 2 ^ 64 := by omega
  obtain ⟨hgstart, hglast, hgend⟩ := growLoop_globals hfit'
  have hls : h.lastHeader = s.addr := by simpa using hr.lastHeader.symm
  have hbefore : ∀ t ∈ L ++ [s],
      t.addr.toNat + 32 ≤ h.heapEnd.toNat ∧ t.addr.toNat ≤ s.addr.toNat := by
    intro t ht
    refine ⟨by have hb := (hr.bounds ht).2; omega, ?_⟩
    rcases List.mem_append.mp ht with ht | ht
    · have hlt := hr.tiles.before ht
      unfold Segment.lo Segment.hi at hlt
      omega
    · rw [List.mem_singleton.mp ht]
  have hapart : ∀ t ∈ L ++ [s], Apart t.addr 32 h.heapEnd 32 := fun t ht =>
    ByteMemory.apart_of_le (by decide) (hbefore t ht).1 (by omega)
  have hgrow : ∀ t ∈ L ++ [s], header (growLoop n h).mem t.addr = header h.mem t.addr := by
    intro t ht
    have hle := (hbefore t ht).2
    exact header_growLoop hfit' (by omega)
  obtain ⟨hz, hu, hother⟩ := header_extend (m := (growLoop n h).mem) (hapart s (by simp))
    (BitVec.ofNat 64 (pagesUp r.toNat - 32))
  simp only [hlen, hglast, hls]
  generalize hm : setLength (setNext (setNext (setLast (HeapSegHeader.setFree (growLoop n h).mem
    h.heapEnd true) h.heapEnd s.addr) s.addr h.heapEnd) h.heapEnd 0) h.heapEnd
      (BitVec.ofNat 64 (pagesUp r.toNat - 32)) = m at hz hu hother
  have hkeep : ∀ t ∈ L, header m t.addr = header h.mem t.addr := by
    intro t ht
    have ht' : t ∈ L ++ [] := by rwa [List.append_nil]
    rw [← hgrow t (mem_of_mem_rest ht')]
    exact hother _ (hr.apart_header ht' s.within_header) (hapart t (mem_of_mem_rest ht')).symm
  refine ⟨?_, hkeep⟩
  refine hr.insert rfl ?_ hu (fun t ht => absurd ht (by simp)) ?_ hgstart (if_pos hls).symm ?_
  · refine hz.trans ?_
    rw [hgrow s (by simp), hr.header_eq (s := s) (by simp)]
  · intro t ht
    have ht' : t ∈ L ++ [] := ht
    rw [List.append_nil] at ht'
    exact hkeep t ht'
  · show Tiles _ _ _ _ (growLoop n h).heapEnd.toNat
    rw [hgend]
    have hnew : Tiles Segment.lo Segment.hi h.heapEnd.toNat
        [⟨h.heapEnd, BitVec.ofNat 64 (pagesUp r.toNat - 32), true⟩]
        (h.heapEnd.toNat + 4096 * n) := by
      refine ⟨rfl, ?_, ?_⟩ <;>
        simp only [tiles_nil, Segment.lo, Segment.hi, BitVec.toNat_ofNat] <;>
        omega
    have htiles := hr.tiles.append hnew
    rwa [List.append_assoc] at htiles

/-- **A free segment follows the last one**, when that one is in use. -/
theorem Represents.extend {r : BitVec 64} (hr : Represents h (L ++ [s])) (hs : s.free = false)
    (hpos : 0 < r.toNat) (hfit : h.heapEnd.toNat + pagesUp r.toNat < 2 ^ 64)
    (hpage : s.addr.toNat + 32 ≤ pageStart h.heapEnd) :
    Represents (extendHeap r h)
      (L ++ s :: [⟨h.heapEnd, BitVec.ofNat 64 (pagesUp r.toNat - 32), true⟩]) := by
  obtain ⟨happend, -⟩ := hr.appended hpos hfit hpage
  have hmerge := Represents.combineBackward_eq (L := L ++ [s]) (R := [])
    (by rwa [List.append_assoc]) (by simpa using hs)
  rw [extendHeap_eq]
  show Represents (combineBackward h.heapEnd (appendSegment r h)) _
  rw [hmerge]
  exact happend

/-! ## `free` -/

/-- **A segment is freed** between neighbours in use. -/
theorem Represents.release (hr : Represents h (L ++ s :: R))
    (hL : ∀ t ∈ L.getLast?, t.free = false) (hR : ∀ t ∈ R.head?, t.free = false) :
    Represents (free (s.addr + 32) h) (L ++ { s with free := true } :: R) := by
  have hset := hr.setFree true
  have hforward := hset.combineForward_eq hR
  have hbackward := hset.combineBackward_eq hL
  unfold free
  have hseg : s.addr + 32 - 32 = s.addr := by bv_omega
  simp only [hseg]
  show Represents (combineBackward s.addr (combineForward s.addr _)) _
  rw [hforward, hbackward]
  exact hset

/-! ## `init_heap` -/

/-- The one segment of a new heap. -/
def initialSegment (heapAddr pageCount : BitVec 64) : Segment :=
  ⟨heapAddr, pageCount * 4096 - 32, true⟩

/-- **A new heap is one free segment.** -/
theorem represents_initHeap {a n : BitVec 64} (h : Heap) (ha : 24 ≤ a.toNat) (hn : 1 ≤ n.toNat)
    (hfit : a.toNat + 4096 * n.toNat < 2 ^ 64) :
    Represents (initHeap a n h) [initialSegment a n] := by
  have hlen : (n * 4096).toNat = 4096 * n.toNat := by
    rw [BitVec.toNat_mul]
    show n.toNat * 4096 % 2 ^ 64 = 4096 * n.toNat
    omega
  have hheader : header (initHeap a n h).mem a = ⟨n * 4096 - 32, 0, 0, true⟩ := by
    unfold initHeap
    simp only [header_setFree_self, header_setLast_self, header_setNext_self,
      header_setLength_self]
  refine ⟨⟨?_, ?_, trivial⟩, ?_, ⟨rfl, ?_, ?_⟩, rfl, ha⟩
  · exact congrArg Header.last hheader
  · exact congrArg Header.next hheader
  · intro s hs
    obtain rfl := List.mem_singleton.mp hs
    exact ⟨congrArg Header.length hheader, congrArg Header.free hheader⟩
  · show a.toNat < a.toNat + 32 + (n * 4096 - 32).toNat
    omega
  · show a.toNat + 32 + (n * 4096 - 32).toNat = (a + n * 4096).toNat
    bv_omega

/-- A new heap of one page at the address that the kernel gives its heap. -/
theorem represents_onePage :
    Represents (initHeap 0x100000000000 1 default) [initialSegment 0x100000000000 1] :=
  represents_initHeap default (by decide) (by decide) (by decide)

end EtaOs
