import EtaOs.Heap.Header
import EtaOs.Library.LinkedList
import EtaOs.Library.Tiling

/-!
# The segments of the heap

What the headers in memory stand for: a list of segments, each a header and a payload, that
tile the heap from `heap_start` to `heap_end`.

The list is not stored anywhere.  It is what `Represents` says that the chain of headers amounts
to, and it carries no more than the lengths and the flags, since addresses are sums of lengths and
the links are addresses.

* `Segment`, `Represents`: the list, and that the memory of the heap shows it.
* `Represents.of_header`, `Represents.setFree`: lengths and flags change, the links stay.
* `Represents.insert`: a header is linked in.
* `Represents.combineForward_eq`, `Represents.combineBackward_eq`: nothing is merged next to
  segments in use.
-/

namespace EtaOs

open ByteMemory HeapSegHeader LinkedList Tiling

/-- A segment: the address of its header, the length of its payload, and its flag. -/
@[ext] structure Segment where
  addr : Addr
  length : BitVec 64
  free : Bool
deriving DecidableEq

namespace Segment

/-- The first byte of a segment. -/
def lo (s : Segment) : ℕ := s.addr.toNat

/-- The end of a segment: 32 bytes of header, then the payload. -/
def hi (s : Segment) : ℕ := s.addr.toNat + 32 + s.length.toNat

/-- A range of bytes of a segment. -/
def Within (s : Segment) (x : Addr) (k : ℕ) : Prop :=
  s.lo ≤ x.toNat ∧ x.toNat + k ≤ s.hi ∧ 0 < k

theorem within_header (s : Segment) : s.Within s.addr 32 := by
  unfold Within lo hi
  omega

theorem within_self (s : Segment) : s.Within s.addr (32 + s.length.toNat) := by
  unfold Within lo hi
  omega

end Segment

/-- The address of the first of the segments behind, or null. -/
def behind (R : List Segment) : Addr := (R.map Segment.addr).headD 0

theorem mem_of_mem_rest {L R : List Segment} {s t : Segment} (ht : t ∈ L ++ R) :
    t ∈ L ++ s :: R := by
  rcases List.mem_append.mp ht with ht | ht
  · exact List.mem_append_left _ ht
  · exact List.mem_append_right _ (List.mem_cons_of_mem s ht)

theorem mem_of_mem_tail_rest {L R : List Segment} {t : Segment} (ht : t ∈ L ++ R.tail) :
    t ∈ L ++ R := by
  rcases List.mem_append.mp ht with ht | ht
  · exact List.mem_append_left _ ht
  · exact List.mem_append_right _ (List.mem_of_mem_tail ht)

/-- **The heap shows the list of segments.**  They are linked from `heap_start` on, tile
the heap, and end with `last_header`.  The heap lies above the bytes that a store through a
null `next` reaches. -/
structure Represents (h : Heap) (segs : List Segment) : Prop where
  linked : Linked (next h.mem) (last h.mem) 0 (segs.map Segment.addr) 0
  fields : ∀ s ∈ segs, length h.mem s.addr = s.length ∧ HeapSegHeader.free h.mem s.addr = s.free
  tiles : Tiles Segment.lo Segment.hi h.heapStart.toNat segs h.heapEnd.toNat
  lastHeader : (segs.map Segment.addr).getLast? = some h.lastHeader
  low : 24 ≤ h.heapStart.toNat

namespace Represents

variable {h h' : Heap} {segs L R : List Segment} {s t : Segment}

/-! ## Where the segments lie -/

theorem bounds (hr : Represents h segs) (hs : s ∈ segs) :
    h.heapStart.toNat ≤ s.addr.toNat ∧ s.addr.toNat + 32 + s.length.toNat ≤ h.heapEnd.toNat := by
  obtain ⟨hlo, -, hhi⟩ := hr.tiles.bounds hs
  exact ⟨hlo, hhi⟩

theorem addr_ne_zero (hr : Represents h segs) (hs : s ∈ segs) : s.addr ≠ 0 := by
  intro h0
  have hlow := hr.low
  have hle := (hr.bounds hs).1
  rw [h0] at hle
  exact absurd hle (by simp only [BitVec.ofNat_eq_ofNat, BitVec.toNat_ofNat, Nat.zero_mod]; omega)

theorem zero_notMem (hr : Represents h segs) : (0 : Addr) ∉ segs.map Segment.addr := by
  intro h0
  obtain ⟨s, hs, hs0⟩ := List.mem_map.mp h0
  exact hr.addr_ne_zero hs hs0

/-- The first segment is at `heap_start`. -/
theorem head_addr (hr : Represents h (s :: segs)) : s.addr = h.heapStart :=
  BitVec.eq_of_toNat_eq hr.tiles.1

/-- Ranges of two segments, one behind the other, share no byte. -/
theorem apart_of_le (hr : Represents h segs) (hs : s ∈ segs) (ht : t ∈ segs)
    (hst : s.hi ≤ t.lo ∨ t.hi ≤ s.lo) {x y : Addr} {k j : ℕ} (hx : s.Within x k)
    (hy : t.Within y j) : Apart x k y j := by
  have hend := h.heapEnd.isLt
  obtain ⟨-, hs'⟩ := hr.bounds hs
  obtain ⟨-, ht'⟩ := hr.bounds ht
  obtain ⟨hx1, hx2, hk⟩ := hx
  obtain ⟨hy1, hy2, hj⟩ := hy
  unfold Segment.lo Segment.hi at *
  rcases hst with hst | hst
  · exact ByteMemory.apart_of_le hk (by omega) (by omega)
  · exact (ByteMemory.apart_of_le hj (by omega) (by omega)).symm

/-- The other segments lie before a segment or behind it. -/
theorem before_or_behind (hr : Represents h (L ++ s :: R)) (ht : t ∈ L ++ R) :
    t.hi ≤ s.lo ∨ s.hi ≤ t.lo := by
  rcases List.mem_append.mp ht with ht | ht
  · exact Or.inl (hr.tiles.before ht)
  · exact Or.inr (hr.tiles.behind ht)

/-- A byte of a segment is no byte of another one. -/
theorem apart_other (hr : Represents h (L ++ s :: R)) (ht : t ∈ L ++ R) {x y : Addr} {k j : ℕ}
    (hx : s.Within x k) (hy : t.Within y j) : Apart x k y j :=
  hr.apart_of_le (by simp) (mem_of_mem_rest ht) (hr.before_or_behind ht).symm hx hy

/-- Every byte of a segment is apart from the headers of the other segments. -/
theorem apart_header (hr : Represents h (L ++ s :: R)) (ht : t ∈ L ++ R) {x : Addr} {k : ℕ}
    (hx : s.Within x k) : Apart x k t.addr 32 :=
  hr.apart_other ht hx t.within_header

/-- The `last` field of the header behind a segment, which is at address 16 when there is
none, is apart from the segment and from every other header. -/
theorem apart_behind (hr : Represents h (L ++ s :: R)) (ht : t ∈ L ++ s :: R.tail) {x : Addr}
    {k : ℕ} (hx : t.Within x k) : Apart (behind R + 16) 8 x k := by
  cases R with
  | nil =>
      have hlow := hr.low
      have hend := h.heapEnd.isLt
      obtain ⟨hlo, hhi⟩ := hr.bounds ht
      obtain ⟨hx1, hx2, hk⟩ := hx
      unfold Segment.lo Segment.hi at *
      refine ByteMemory.apart_of_le (by decide) ?_ ?_ <;>
        simp only [behind, List.map_nil, List.headD_nil, BitVec.ofNat_eq_ofNat, BitVec.zero_add,
          BitVec.toNat_ofNat] <;>
        omega
  | cons u R =>
      have hr' : Represents h ((L ++ [s]) ++ u :: R) := by
        rwa [List.append_assoc, List.singleton_append]
      have ht' : t ∈ (L ++ [s]) ++ R := by
        rwa [List.append_assoc, List.singleton_append]
      have hu : u.Within (u.addr + 16) 8 := by
        have hlt := (hr'.bounds (s := u) (by simp)).2
        have hend := h.heapEnd.isLt
        have hoff : (u.addr + 16).toNat = u.addr.toNat + 16 := by bv_omega
        unfold Segment.Within Segment.lo Segment.hi
        omega
      exact hr'.apart_of_le (by simp) (mem_of_mem_rest ht') (hr'.before_or_behind ht').symm hu hx

/-! ## Neighbours -/

theorem next_eq_behind (hr : Represents h (L ++ s :: R)) : next h.mem s.addr = behind R := by
  have hlinked := hr.linked
  rw [List.map_append, List.map_cons, linked_append] at hlinked
  exact hlinked.2.2.1

theorem last_eq_before (hr : Represents h (L ++ s :: R)) :
    last h.mem s.addr = (L.map Segment.addr).getLastD 0 := by
  have hlinked := hr.linked
  rw [List.map_append, List.map_cons, linked_append] at hlinked
  exact hlinked.2.1

/-! ## Stores to the headers -/

/-- **Fields and flags may change where the links stay.** -/
theorem of_header {segs' : List Segment} (hr : Represents h segs)
    (haddr : segs'.map Segment.addr = segs.map Segment.addr) (hstart : h'.heapStart = h.heapStart)
    (hlast : h'.lastHeader = h.lastHeader)
    (htiles : Tiles Segment.lo Segment.hi h.heapStart.toNat segs' h'.heapEnd.toNat)
    (hheader : ∀ s ∈ segs', header h'.mem s.addr =
      { header h.mem s.addr with length := s.length, free := s.free }) : Represents h' segs' where
  linked := by
    rw [haddr]
    refine hr.linked.congr fun x hx => ?_
    rw [← haddr] at hx
    obtain ⟨s, hs, rfl⟩ := List.mem_map.mp hx
    rw [next_eq, last_eq, hheader s hs]
    exact ⟨rfl, rfl⟩
  fields := by
    intro s hs
    rw [length_eq, free_eq, hheader s hs]
    exact ⟨rfl, rfl⟩
  tiles := by rwa [hstart]
  lastHeader := by rw [haddr, hlast, hr.lastHeader]
  low := by rw [hstart]; exact hr.low

/-- The header of a segment, as the list has it. -/
theorem header_eq (hr : Represents h segs) (hs : s ∈ segs) :
    header h.mem s.addr = { header h.mem s.addr with length := s.length, free := s.free } := by
  obtain ⟨hlen, hfree⟩ := hr.fields s hs
  ext1
  · exact hlen
  · rfl
  · rfl
  · exact hfree

/-- **The flag of a segment changes.** -/
theorem setFree (hr : Represents h (L ++ s :: R)) (v : Bool) :
    Represents { h with mem := setFree h.mem s.addr v } (L ++ { s with free := v } :: R) := by
  refine hr.of_header (by simp) rfl rfl ?_ ?_
  · obtain ⟨hbefore, hlt, hrest⟩ := tiles_middle.mp hr.tiles
    exact tiles_middle.mpr ⟨hbefore, hlt, hrest⟩
  · intro t ht
    have hcases : t = { s with free := v } ∨ t ∈ L ++ R := by
      simpa [or_left_comm] using ht
    rcases hcases with rfl | ht
    · show header (HeapSegHeader.setFree h.mem s.addr v) s.addr = _
      rw [header_setFree_self, hr.header_eq (s := s) (by simp)]
    · show header (HeapSegHeader.setFree h.mem s.addr v) t.addr = _
      rw [header_setFree (hr.apart_header ht s.within_header), ← hr.header_eq (mem_of_mem_rest ht)]

/-- `last_header` is the segment in front exactly when nothing is behind it. -/
theorem lastHeader_insert (hr : Represents h (L ++ s :: R)) (b : Addr) :
    (L.map Segment.addr ++ s.addr :: b :: R.map Segment.addr).getLast? =
      some (if h.lastHeader = s.addr then b else h.lastHeader) := by
  have hlast := hr.lastHeader
  rw [List.map_append, List.map_cons, List.getLast?_append_cons] at hlast
  rw [List.getLast?_append_cons, List.getLast?_cons_cons]
  cases R with
  | nil =>
      have hls : h.lastHeader = s.addr := by simpa using hlast.symm
      rw [if_pos hls]
      rfl
  | cons u R =>
      rw [List.map_cons, List.getLast?_cons_cons, ← List.map_cons] at hlast
      obtain ⟨t, ht, hta⟩ := List.mem_map.mp (List.mem_of_getLast? hlast)
      have hbehind : s.hi ≤ t.lo := hr.tiles.behind ht
      have hne : h.lastHeader ≠ s.addr := by
        intro heq
        unfold Segment.lo Segment.hi at hbehind
        rw [hta, heq] at hbehind
        omega
      rw [if_neg hne, List.map_cons, List.getLast?_cons_cons, ← List.map_cons, hlast]

/-- **A header is linked in** behind another one. -/
theorem insert {s' u : Segment} (hr : Represents h (L ++ s :: R)) (haddr : s'.addr = s.addr)
    (hs : header h'.mem s.addr =
      { header h.mem s.addr with length := s'.length, next := u.addr, free := s'.free })
    (hu : header h'.mem u.addr = ⟨u.length, behind R, s.addr, u.free⟩)
    (hhead : ∀ t ∈ R.head?, header h'.mem t.addr = { header h.mem t.addr with last := u.addr })
    (hother : ∀ t ∈ L ++ R.tail, header h'.mem t.addr = header h.mem t.addr)
    (hstart : h'.heapStart = h.heapStart)
    (hlast : h'.lastHeader = if h.lastHeader = s.addr then u.addr else h.lastHeader)
    (htiles : Tiles Segment.lo Segment.hi h.heapStart.toNat (L ++ s' :: u :: R) h'.heapEnd.toNat) :
    Represents h' (L ++ s' :: u :: R) := by
  have hkeep : ∀ t ∈ L ++ R,
      ∃ l, header h'.mem t.addr = { header h.mem t.addr with last := l } := by
    intro t ht
    rcases List.mem_append.mp ht with ht | ht
    · exact ⟨_, hother t (List.mem_append_left _ ht)⟩
    · cases R with
      | nil => exact absurd ht (by simp)
      | cons v R =>
          rcases List.mem_cons.mp ht with rfl | ht
          · exact ⟨u.addr, hhead t rfl⟩
          · exact ⟨_, hother t (List.mem_append_right _ ht)⟩
  refine ⟨?_, ?_, by rwa [hstart], ?_, by rw [hstart]; exact hr.low⟩
  · have hlinked := hr.linked
    rw [List.map_append, List.map_cons] at hlinked
    rw [List.map_append, List.map_cons, List.map_cons, haddr]
    refine hlinked.insert ?_ ?_ ?_ ?_ ?_ ?_
    · rw [next_eq, hs]
    · rw [last_eq, hu]
    · rw [next_eq, hu, hr.next_eq_behind]
    · intro z hz
      rw [List.head?_map] at hz
      obtain ⟨t, ht, rfl⟩ := Option.map_eq_some_iff.mp hz
      rw [last_eq, hhead t ht]
    · intro z hz
      rw [← List.map_append] at hz
      obtain ⟨t, ht, rfl⟩ := List.mem_map.mp hz
      obtain ⟨l, hl⟩ := hkeep t ht
      rw [next_eq, hl, next_eq]
    · intro z hz
      rw [← List.map_tail, ← List.map_cons, ← List.map_append] at hz
      obtain ⟨t, ht, rfl⟩ := List.mem_map.mp hz
      have hcases : t = s ∨ t ∈ L ++ R.tail := by simpa [or_left_comm] using ht
      rcases hcases with rfl | ht
      · rw [last_eq, hs, last_eq]
      · rw [last_eq, hother t ht, last_eq]
  · intro t ht
    have hcases : t = s' ∨ t = u ∨ t ∈ L ++ R := by
      simp only [List.mem_append, List.mem_cons] at ht ⊢
      tauto
    rcases hcases with rfl | rfl | ht
    · rw [length_eq, free_eq, haddr, hs]
      exact ⟨rfl, rfl⟩
    · rw [length_eq, free_eq, hu]
      exact ⟨rfl, rfl⟩
    · obtain ⟨l, hl⟩ := hkeep t ht
      rw [length_eq, free_eq, hl]
      exact hr.fields t (mem_of_mem_rest ht)
  · rw [List.map_append, List.map_cons, List.map_cons, haddr, hr.lastHeader_insert, hlast]

/-! ## Nothing to merge -/

/-- Nothing is merged in front of a segment in use. -/
theorem combineForward_eq (hr : Represents h (L ++ s :: R)) (hR : ∀ t ∈ R.head?, t.free = false) :
    combineForward s.addr h = h := by
  unfold combineForward
  rw [hr.next_eq_behind]
  cases R with
  | nil => exact if_pos rfl
  | cons t R =>
      have hfree : HeapSegHeader.free h.mem t.addr = false :=
        (hr.fields t (by simp)).2.trans (hR t rfl)
      have hne : t.addr ≠ 0 := hr.addr_ne_zero (by simp)
      show (if t.addr = 0 then _ else if HeapSegHeader.free h.mem t.addr = false then _ else _) = _
      rw [if_neg hne, if_pos hfree]

/-- Nothing is merged behind a segment in use. -/
theorem combineBackward_eq (hr : Represents h (L ++ s :: R))
    (hL : ∀ t ∈ L.getLast?, t.free = false) : combineBackward s.addr h = h := by
  unfold combineBackward
  rw [hr.last_eq_before]
  refine if_neg ?_
  rintro ⟨hne, hfree⟩
  rcases List.eq_nil_or_concat L with rfl | ⟨L, t, rfl⟩
  · exact hne rfl
  · rw [List.concat_eq_append] at *
    have ht := (hr.fields t (by simp)).2
    have hlast : ((L ++ [t]).map Segment.addr).getLastD 0 = t.addr := by simp
    rw [hlast, ht, hL t (by simp)] at hfree
    exact absurd hfree (by decide)

end Represents

end EtaOs
