import EtaOs.Heap.Malloc
import EtaOs.Library.Runs
import Mathlib.Data.List.Perm.Basic
import Mathlib.Order.Interval.Set.Defs

/-!
# Runs of the heap

A run of the heap is a sequence of calls of `malloc` and `free`.  Its states are the heap
and the live blocks: what `malloc` returned, with the size that was asked for, and `free`
was not given since.

Freeing is restricted to live blocks, each freed once, which is what `free` is owed; the sizes and
the order of calls are arbitrary.  The fuel of `malloc` is part of a step, so that a call that
never returns is no step.

* `Met`: the headers met from `heap_start` by following `next`.
* `HeapState`, `HeapOp`, `HeapStep`, `HeapRun`: the states and the calls.
* `NeighboursInUse`: a call of `free` that merges nothing.
* `malloc_step`, `free_step`: one call, on the list of segments.
-/

namespace EtaOs

open ByteMemory HeapSegHeader LinkedList Tiling Relation

/-! ## The headers met from `heap_start` -/

/-- A header met from `heap_start` by following `next`. -/
def Met (h : Heap) (a : Addr) : Prop := Reached (next h.mem) 0 h.heapStart a

/-- A header with a free payload of at least `r` bytes. -/
def FitsAt (h : Heap) (r : BitVec 64) (a : Addr) : Prop :=
  HeapSegHeader.free h.mem a = true ∧ r ≤ length h.mem a

namespace Represents

variable {h : Heap} {segs L R : List Segment} {s t : Segment} {a : Addr} {r : BitVec 64}

/-- **The headers met are those of the list.** -/
theorem met_iff (hr : Represents h segs) : Met h a ↔ ∃ s ∈ segs, s.addr = a := by
  have hzero := hr.zero_notMem
  cases segs with
  | nil => exact absurd hr.lastHeader (by simp)
  | cons s segs =>
      have hlinked := hr.linked
      rw [List.map_cons, List.mem_cons, not_or] at hzero
      unfold Met
      rw [← hr.head_addr, hlinked.reached_iff hzero.2, ← List.map_cons, List.mem_map]

theorem fitsAt_iff (hr : Represents h segs) (hs : s ∈ segs) : FitsAt h r s.addr ↔ s.Fits r := by
  obtain ⟨hlen, hfree⟩ := hr.fields s hs
  unfold FitsAt Segment.Fits
  rw [hlen, hfree]

/-- A payload starts 32 bytes behind its header. -/
theorem payload_toNat (hr : Represents h segs) (hs : s ∈ segs) :
    (s.addr + 32).toNat = s.addr.toNat + 32 := by
  have hend := h.heapEnd.isLt
  have hle := (hr.bounds hs).2
  bv_omega

theorem payload_ne_zero (hr : Represents h segs) (hs : s ∈ segs) : s.addr + 32 ≠ 0 := by
  have hval := hr.payload_toNat hs
  intro h0
  rw [h0] at hval
  exact absurd hval (by simp)

end Represents

/-! ## Runs -/

/-- A block: the pointer `malloc` returned, and the size it was asked for. -/
structure Block where
  ptr : Addr
  size : BitVec 64
deriving DecidableEq

/-- The heap and the live blocks. -/
structure HeapState where
  heap : Heap
  live : List Block

/-- The calls of a run. -/
inductive HeapOp
  | malloc (size : BitVec 64)
  | free (b : Block)

/-- One call.  A null result of `malloc` is no block, and `free` gets the pointer of a live
block. -/
inductive HeapStep : HeapState → HeapOp → HeapState → Prop
  | malloc (s : HeapState) (size : BitVec 64) (fuel : ℕ) (p : Addr) (h : Heap)
      (hmalloc : malloc fuel size s.heap = some (p, h)) :
      HeapStep s (.malloc size) ⟨h, if p = 0 then s.live else ⟨p, size⟩ :: s.live⟩
  | free (s : HeapState) (b : Block) (hb : b ∈ s.live) :
      HeapStep s (.free b) ⟨free b.ptr s.heap, s.live.erase b⟩

/-- The runs whose calls all meet a condition on the state before the call. -/
def HeapRun (Meets : HeapState → HeapOp → Prop) : HeapState → HeapState → Prop :=
  ReflTransGen fun s t => ∃ op, HeapStep s op t ∧ Meets s op

/-- A new heap, without blocks. -/
def HeapState.initial (a n : BitVec 64) (h : Heap) : HeapState := ⟨initHeap a n h, []⟩

/-- Both neighbours of the segment of a pointer are in use, where there are any. -/
def NeighboursInUse (h : Heap) (p : Addr) : Prop :=
  (next h.mem (p - 32) ≠ 0 → HeapSegHeader.free h.mem (next h.mem (p - 32)) = false) ∧
    (last h.mem (p - 32) ≠ 0 → HeapSegHeader.free h.mem (last h.mem (p - 32)) = false)

/-! ## One call on the list of segments -/

variable {h h' : Heap} {segs segs' L R : List Segment} {s t : Segment} {p : Addr}
  {size r : BitVec 64} {fuel : ℕ}

/-- **A call of `malloc`** that is served. -/
theorem malloc_step (hr : Represents h segs) (hne : roundUp size ≠ 0)
    (hserved : Served h segs (roundUp size)) (hmalloc : malloc fuel size h = some (p, h')) :
    ∃ segs', Represents h' segs' ∧ h'.heapEnd.toNat % 4096 = h.heapEnd.toNat % 4096 ∧
      (Allots (roundUp size) segs p segs' ∨
        (∀ t ∈ segs, ¬ t.Fits (roundUp size)) ∧ CanGrow h (roundUp size) ∧
          Allots (roundUp size) (segs ++ [grown h (roundUp size)]) p segs') := by
  obtain ⟨q, k, segs', htotal, hrest⟩ := malloc_spec hr hne hserved
  obtain ⟨rfl, rfl⟩ := Prod.mk.inj (malloc_unique hmalloc (htotal _ (Nat.le_refl _)))
  exact ⟨segs', hrest⟩

/-- A request that wraps to zero returns null. -/
theorem malloc_step_zero (h0 : roundUp size = 0) (hmalloc : malloc fuel size h = some (p, h')) :
    p = 0 ∧ h' = h := by
  cases fuel with
  | zero => exact absurd hmalloc (by simp [malloc])
  | succ fuel =>
      rw [malloc_zero h0] at hmalloc
      obtain ⟨rfl, rfl⟩ := Prod.mk.inj (Option.some.inj hmalloc)
      exact ⟨rfl, rfl⟩

/-- **A call of `free`** between neighbours in use. -/
theorem free_step (hr : Represents h (L ++ s :: R)) (hfree : NeighboursInUse h (s.addr + 32)) :
    Represents (free (s.addr + 32) h) (L ++ { s with free := true } :: R) ∧
      (∀ t ∈ L.getLast?, t.free = false) ∧ ∀ t ∈ R.head?, t.free = false := by
  have hseg : s.addr + 32 - 32 = s.addr := by bv_omega
  unfold NeighboursInUse at hfree
  rw [hseg, hr.next_eq_behind, hr.last_eq_before] at hfree
  have hR : ∀ t ∈ R.head?, t.free = false := by
    intro t ht
    cases R with
    | nil => exact absurd ht (by simp)
    | cons u R =>
        obtain rfl : u = t := by simpa using ht
        have hu : u ∈ L ++ s :: u :: R := by simp
        rw [← (hr.fields u hu).2]
        exact hfree.1 (hr.addr_ne_zero hu)
  have hL : ∀ t ∈ L.getLast?, t.free = false := by
    intro t ht
    rcases List.eq_nil_or_concat L with rfl | ⟨L, u, rfl⟩
    · exact absurd ht (by simp)
    · rw [List.concat_eq_append] at *
      obtain rfl : u = t := by simpa using ht
      have hu : u ∈ L ++ [u] ++ s :: R := by simp
      have hlast : ((L ++ [u]).map Segment.addr).getLastD 0 = u.addr := by simp
      rw [hlast] at hfree
      rw [← (hr.fields u hu).2]
      exact hfree.2 (hr.addr_ne_zero hu)
  exact ⟨hr.release hL hR, hL, hR⟩

/-- Neighbours in use on the list are neighbours in use in memory. -/
theorem Represents.neighboursInUse (hr : Represents h (L ++ s :: R))
    (hL : ∀ t ∈ L.getLast?, t.free = false) (hR : ∀ t ∈ R.head?, t.free = false) :
    NeighboursInUse h (s.addr + 32) := by
  have hseg : s.addr + 32 - 32 = s.addr := by bv_omega
  unfold NeighboursInUse
  rw [hseg, hr.next_eq_behind, hr.last_eq_before]
  constructor
  · intro hne
    cases R with
    | nil => exact absurd rfl hne
    | cons u R => exact (hr.fields u (by simp)).2.trans (hR u rfl)
  · intro hne
    rcases List.eq_nil_or_concat L with rfl | ⟨L, u, rfl⟩
    · exact absurd rfl hne
    · rw [List.concat_eq_append] at *
      have hlast : ((L ++ [u]).map Segment.addr).getLastD 0 = u.addr := by simp
      rw [hlast]
      exact (hr.fields u (by simp)).2.trans (hL u (by simp))

/-! ## What `malloc` leaves of the list -/

/-- The first piece of the segment handed out has its header. -/
theorem allot_head (r : BitVec 64) (s : Segment) :
    ∃ t rest, allot r s = t :: rest ∧ t.addr = s.addr := by
  unfold allot
  split_ifs
  · exact ⟨s, [], rfl, rfl⟩
  · exact ⟨_, [], rfl, rfl⟩
  · exact ⟨_, [_], rfl, rfl⟩

namespace Allots

/-- The segments in use stay as they are. -/
theorem mem_of_inUse (ha : Allots r segs p segs') (ht : t ∈ segs) (hused : t.free = false) :
    t ∈ segs' := by
  obtain ⟨L, R, s, -, hs⟩ := ha
  have hcases : t ∈ L ∨ t = s ∨ t ∈ R := by simpa using ht
  rcases hcases with ht | rfl | ht
  · exact List.mem_append_left _ (List.mem_append_left _ ht)
  · rw [hs.1] at hused
    exact absurd hused (by decide)
  · exact List.mem_append_right _ ht

/-- No header goes away. -/
theorem exists_addr (ha : Allots r segs p segs') (ht : t ∈ segs) :
    ∃ u ∈ segs', u.addr = t.addr := by
  obtain ⟨L, R, s, -, -⟩ := ha
  have hcases : t ∈ L ∨ t = s ∨ t ∈ R := by simpa using ht
  rcases hcases with ht | rfl | ht
  · exact ⟨t, List.mem_append_left _ (List.mem_append_left _ ht), rfl⟩
  · obtain ⟨u, rest, hallot, hu⟩ := allot_head r t
    refine ⟨u, List.mem_append_left _ (List.mem_append_right _ ?_), hu⟩
    rw [hallot]
    exact List.mem_cons_self
  · exact ⟨t, List.mem_append_right _ ht, rfl⟩

/-- The pointer returned is the payload of a header of the list. -/
theorem exists_payload (ha : Allots r segs p segs') : ∃ u ∈ segs', p = u.addr + 32 := by
  obtain ⟨L, R, s, -, -⟩ := ha
  obtain ⟨u, rest, hallot, hu⟩ := allot_head r s
  refine ⟨u, List.mem_append_left _ (List.mem_append_right _ ?_), by rw [hu]⟩
  rw [hallot]
  exact List.mem_cons_self

/-- The pointer returned is not the payload of a segment that was in use. -/
theorem payload_ne (ha : Allots r segs p segs') (hr : Represents h segs') (ht : t ∈ segs)
    (hused : t.free = false) : t.addr + 32 ≠ p := by
  obtain ⟨L, R, s, -, hs⟩ := ha
  obtain ⟨u, rest, hallot, hu⟩ := allot_head r s
  have hcases : t ∈ L ∨ t = s ∨ t ∈ R := by simpa using ht
  have hmem : t ∈ L ++ (rest ++ R) := by
    rcases hcases with ht | rfl | ht
    · exact List.mem_append_left _ ht
    · rw [hs.1] at hused
      exact absurd hused (by decide)
    · exact List.mem_append_right _ (List.mem_append_right _ ht)
  rw [hallot, List.append_assoc, List.cons_append] at hr
  have hapart := hr.before_or_behind hmem
  unfold Segment.lo Segment.hi at hapart
  intro heq
  have haddr : t.addr = u.addr := by
    rw [hu]
    bv_omega
  rw [haddr] at hapart
  omega

/-- Unless the fit is exact, the segment handed out is in use and has room for the request. -/
theorem exists_block (ha : Allots r segs p segs')
    (hne : ∀ L s R, segs = L ++ s :: R → (∀ t ∈ L, ¬ t.Fits r) → s.Fits r → s.length ≠ r) :
    ∃ u ∈ segs', p = u.addr + 32 ∧ u.free = false ∧ r ≤ u.length := by
  obtain ⟨L, R, s, hL, hs⟩ := ha
  have hmem : ∀ u ∈ allot r s, u ∈ L ++ allot r s ++ R := fun u hu =>
    List.mem_append_left _ (List.mem_append_right _ hu)
  have hexact := hne L s R rfl hL hs
  unfold allot at hmem ⊢
  rw [if_neg hexact] at hmem ⊢
  split_ifs at hmem ⊢
  · exact ⟨_, hmem _ List.mem_cons_self, rfl, rfl, hs.2⟩
  · exact ⟨_, hmem _ List.mem_cons_self, rfl, rfl, BitVec.le_refl r⟩

end Allots

end EtaOs
