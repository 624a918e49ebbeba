import EtaOs.Heap.Merges

/-!
# Handing out the first fit, and taking it back

Where a segment fits, `malloc` does not extend the heap.  It hands out the first fit, and
should leave it in use and hardly longer than the request, with every other segment as it was.
An exact fit stays free, and a remainder from `2 ^ 63` bytes on is not split off.  `free` of
the pointer should bring the list back; it does so when nothing was split off.

Both statements compare the list of segments before and after, so they say what happened to every
segment and not just to the one that was handed out.

* `scan_sameHeap`, `malloc_fits`: the loop of `malloc` hands out the first fit.
* `HandsOut`, `handsOut_iff`: the state after a request that fits.
* `Restores`, `restores_iff`: the state after the pointer is freed again.
-/

namespace EtaOs

open ByteMemory HeapSegHeader LinkedList Tiling

variable {h : Heap} {L R : List Segment} {s : Segment} {size r : BitVec 64}

/-! ## `malloc` -/

/-- The loop of `malloc` does not extend the heap. -/
theorem scan_sameHeap {fuel : ℕ} {a : Addr} {x : Option Addr} {h' : Heap}
    (hscan : scan fuel r a h = some (x, h')) : SameHeap h h' := by
  induction fuel generalizing a with
  | zero => exact absurd hscan (by simp [scan])
  | succ fuel ih =>
      rw [scan] at hscan
      split_ifs at hscan
      · obtain ⟨-, rfl⟩ := Prod.mk.inj (Option.some.inj hscan)
        exact (split_sameHeap a r h).trans ⟨rfl, rfl, rfl⟩
      · obtain ⟨-, rfl⟩ := Prod.mk.inj (Option.some.inj hscan)
        exact SameHeap.refl h
      · obtain ⟨-, rfl⟩ := Prod.mk.inj (Option.some.inj hscan)
        exact SameHeap.refl h
      · exact ih hscan

/-- **A request that fits** gets the first fit from the loop, and the heap is not extended. -/
theorem malloc_fits (hr : Represents h (L ++ s :: R)) (hne : roundUp size ≠ 0)
    (hL : ∀ t ∈ L, ¬ t.Fits (roundUp size)) (hs : s.Fits (roundUp size)) :
    ∃ fuel h', malloc fuel size h = some (s.addr + 32, h') ∧ SameHeap h h' ∧
      Represents h' (L ++ allot (roundUp size) s ++ R) := by
  obtain ⟨h', hscan, hr', -⟩ := scan_first hr hL hs (roundUp_not_lt hne) (Nat.lt_succ_self L.length)
  refine ⟨L.length + 1, h', ?_, scan_sameHeap hscan, hr'⟩
  rw [malloc, if_neg hne, hscan]

/-- **The state after a request that fits**: the heap is not extended, the payload of the first
fit `s` is returned, `s` is in use with room for the request and less than 48 bytes more, and
the other segments are as they were, but for a free remainder behind `s`. -/
def HandsOut (h : Heap) (L : List Segment) (s : Segment) (R : List Segment) (size : BitVec 64) :
    Prop :=
  ∃ fuel h' len rest, malloc fuel size h = some (s.addr + 32, h') ∧ SameHeap h h' ∧
    Represents h' (L ++ ⟨s.addr, len, false⟩ :: (rest ++ R)) ∧
    roundUp size ≤ len ∧ len.toNat < (roundUp size).toNat + 48 ∧
    rest.length ≤ 1 ∧ ∀ u ∈ rest, u.free = true

/-- What becomes of the first fit, by its length. -/
theorem allot_cases (hs : s.Fits r) :
    s.length = r ∧ allot r s = [s] ∨
      s.length ≠ r ∧ (s.length.toNat < r.toNat + 48 ∨ r.toNat + 32 + 2 ^ 63 ≤ s.length.toNat) ∧
        allot r s = [{ s with free := false }] ∨
      r.toNat + 48 ≤ s.length.toNat ∧ s.length.toNat < r.toNat + 32 + 2 ^ 63 ∧
        allot r s = [⟨s.addr, r, false⟩, ⟨s.addr + r + 32, s.length - r - 32, true⟩] := by
  unfold allot
  by_cases heq : s.length = r
  · exact Or.inl ⟨heq, if_pos heq⟩
  · have hiff := slt_remainder_iff hs.2
    by_cases hslt : (s.length - r - 32).slt 0x10
    · refine Or.inr (Or.inl ⟨heq, hiff.mp hslt, ?_⟩)
      rw [if_neg heq, if_pos hslt]
    · have hnot := (not_congr hiff).mp hslt
      refine Or.inr (Or.inr ⟨by omega, by omega, ?_⟩)
      rw [if_neg heq, if_neg hslt]

/-- **When `malloc` is first fit and claims what it returns.**  For every heap and request with
a first fit `s`: exactly when the fit is not exact, and what is left of `s` behind the request
and a header is less than `2 ^ 63` bytes. -/
theorem handsOut_iff (hr : Represents h (L ++ s :: R)) (hne : roundUp size ≠ 0)
    (hL : ∀ t ∈ L, ¬ t.Fits (roundUp size)) (hs : s.Fits (roundUp size)) :
    HandsOut h L s R size ↔
      s.length ≠ roundUp size ∧ s.length.toNat < (roundUp size).toNat + 32 + 2 ^ 63 := by
  obtain ⟨fuel, h', hmalloc, hsame, hr'⟩ := malloc_fits hr hne hL hs
  have hle : (roundUp size).toNat ≤ s.length.toNat := hs.2
  rw [List.append_assoc] at hr'
  rcases allot_cases hs with ⟨heq, hallot⟩ | ⟨hneq, hlen, hallot⟩ | ⟨hlong, hshort, hallot⟩
  · -- an exact fit stays free
    rw [hallot] at hr'
    refine iff_of_false ?_ fun hcond => hcond.1 heq
    rintro ⟨fuel', h'', len, rest, hmalloc', -, hr'', -⟩
    obtain ⟨-, rfl⟩ := Prod.mk.inj (malloc_unique hmalloc hmalloc')
    have hfree := (hr'.fields s (by simp)).2
    have hused := (hr''.fields ⟨s.addr, len, false⟩ (by simp)).2
    rw [hs.1] at hfree
    exact Bool.noConfusion (hused.symm.trans hfree)
  · rw [hallot] at hr'
    constructor
    · rintro ⟨fuel', h'', len, rest, hmalloc', -, hr'', -, hbound, -⟩
      obtain ⟨-, rfl⟩ := Prod.mk.inj (malloc_unique hmalloc hmalloc')
      have hlen₁ := (hr'.fields { s with free := false } (by simp)).1
      have hlen₂ := (hr''.fields ⟨s.addr, len, false⟩ (by simp)).1
      have hsame' : len = s.length := hlen₂.symm.trans hlen₁
      rw [hsame'] at hbound
      exact ⟨hneq, by omega⟩
    · rintro ⟨-, hshort⟩
      exact ⟨fuel, h', s.length, [], hmalloc, hsame, hr', hs.2, by omega, by simp, by simp⟩
  · rw [hallot] at hr'
    refine iff_of_true ⟨fuel, h', roundUp size, [_], hmalloc, hsame, hr', BitVec.le_refl _,
      by omega, by simp, by simp⟩ ⟨?_, hshort⟩
    rintro heq
    rw [heq] at hlong
    omega

/-- A request of 16 bytes on a new heap of one page. -/
theorem handsOut_page :
    HandsOut (initHeap 0x100000000000 1 default) [] (initialSegment 0x100000000000 1) [] 16 := by
  have hr := represents_onePage
  exact (handsOut_iff (L := []) (R := []) hr (by decide) (by simp) (by decide)).mpr
    ⟨by decide, by decide⟩

/-- A request for the whole payload of a new heap leaves its segment free. -/
theorem not_handsOut_page : ¬ ∀ (h : Heap) (L : List Segment) (s : Segment) (R : List Segment)
    (size : BitVec 64), Represents h (L ++ s :: R) → roundUp size ≠ 0 →
      (∀ t ∈ L, ¬ t.Fits (roundUp size)) → s.Fits (roundUp size) → HandsOut h L s R size := by
  intro hall
  have hr := represents_onePage
  obtain ⟨fuel, h', len, rest, hmalloc, -, hr', -⟩ :=
    hall _ [] (initialSegment 0x100000000000 1) [] 4064 hr (by decide) (by simp) (by decide)
  obtain ⟨h₁, hmalloc₁, -, -, hsame⟩ := malloc_first 4064 1 (L := []) (R := []) hr (by decide)
    (by simp) (by decide) (by decide)
  obtain rfl := hsame (by decide)
  obtain ⟨-, rfl⟩ := Prod.mk.inj (malloc_unique hmalloc hmalloc₁)
  have hfree := (hr.fields (initialSegment 0x100000000000 1) (by simp)).2
  have hused := (hr'.fields ⟨(initialSegment 0x100000000000 1).addr, len, false⟩ (by simp)).2
  exact Bool.noConfusion (hused.symm.trans hfree)

/-! ## `free` -/

/-- **The list is back** after a request that fits and the free of what it got: the same
segments, links and last header, in the same bounds. -/
def Restores (h : Heap) (segs : List Segment) (size : BitVec 64) : Prop :=
  ∃ fuel p h', malloc fuel size h = some (p, h') ∧ SameHeap h (free p h') ∧
    Represents (free p h') segs

/-- The neighbours of a free segment are in use. -/
theorem NoFreeNeighbours.inUse (hsep : NoFreeNeighbours (L ++ s :: R)) (hs : s.free = true) :
    (∀ t ∈ L.getLast?, t.free = false) ∧ ∀ t ∈ R.head?, t.free = false := by
  obtain ⟨-, hL, hR, -⟩ := separated_middle.mp hsep
  refine ⟨fun t ht => ?_, fun t ht => ?_⟩
  · exact Bool.eq_false_iff.mpr fun hfree => hL t ht ⟨hfree, hs⟩
  · exact Bool.eq_false_iff.mpr fun hfree => hR t ht ⟨hs, hfree⟩

/-- A segment that was not split is free again. -/
theorem Represents.free_again {h' : Heap} {v : Bool} (hsep : NoFreeNeighbours (L ++ s :: R))
    (hs : s.free = true) (hr' : Represents h' (L ++ { s with free := v } :: R)) :
    Represents (free (s.addr + 32) h') (L ++ s :: R) := by
  obtain ⟨hL, hR⟩ := hsep.inUse hs
  have hrelease := hr'.release hL hR
  rwa [← hs] at hrelease

/-- **A segment that was split stays split**: the link to the remainder is left behind. -/
theorem not_represents_free {h' : Heap} {u : Segment} {len : BitVec 64}
    (hsep : NoFreeNeighbours (L ++ s :: R))
    (hr' : Represents h' (L ++ ⟨s.addr, len, false⟩ :: u :: R)) (hu : u.free = true) :
    ¬ Represents (free (s.addr + 32) h') (L ++ s :: R) := by
  intro hback
  refine not_listIntact_merges (hr'.setFree true) rfl (Or.inl ⟨u, rfl, hu⟩) ?_
  have hintact := hback.listIntact hsep
  have hseg : s.addr + 32 - 32 = s.addr := by bv_omega
  unfold free at hintact
  rwa [hseg] at hintact

/-- **When `free` undoes `malloc`.**  For every heap without free neighbours and request with a
first fit `s`: exactly when `s` is not split, because the fit is exact, what is left has no room
for a header and a payload, or its length is `2 ^ 63` or more. -/
theorem restores_iff (hr : Represents h (L ++ s :: R)) (hsep : NoFreeNeighbours (L ++ s :: R))
    (hne : roundUp size ≠ 0) (hL : ∀ t ∈ L, ¬ t.Fits (roundUp size))
    (hs : s.Fits (roundUp size)) :
    Restores h (L ++ s :: R) size ↔
      s.length.toNat < (roundUp size).toNat + 48 ∨
        (roundUp size).toNat + 32 + 2 ^ 63 ≤ s.length.toNat := by
  obtain ⟨fuel, h', hmalloc, hsame, hr'⟩ := malloc_fits hr hne hL hs
  have hsame' : SameHeap h (free (s.addr + 32) h') := hsame.trans (free_sameHeap _ h')
  have hback : ∀ v, Represents h' (L ++ { s with free := v } :: R) →
      Restores h (L ++ s :: R) size := fun v hv =>
    ⟨fuel, _, h', hmalloc, hsame', hv.free_again hsep hs.1⟩
  rw [List.append_assoc] at hr'
  rcases allot_cases hs with ⟨heq, hallot⟩ | ⟨-, hlen, hallot⟩ | ⟨hlong, hshort, hallot⟩
  · rw [hallot] at hr'
    refine iff_of_true (hback s.free hr') (Or.inl ?_)
    rw [heq]
    omega
  · rw [hallot] at hr'
    exact iff_of_true (hback false hr') hlen
  · rw [hallot] at hr'
    refine iff_of_false ?_ (by omega)
    rintro ⟨fuel', p, h'', hmalloc', -, hrep⟩
    obtain ⟨rfl, rfl⟩ := Prod.mk.inj (malloc_unique hmalloc hmalloc')
    exact not_represents_free hsep hr' rfl hrep

/-- The whole payload of a new heap is handed out and freed again. -/
theorem restores_page : Restores (initHeap 0x100000000000 1 default)
    [initialSegment 0x100000000000 1] 4064 := by
  have hr := represents_onePage
  exact (restores_iff (L := []) (R := []) hr (List.isChain_singleton _) (by decide) (by simp)
    (by decide)).mpr (Or.inl (by decide))

/-- A block of 16 bytes of a new heap is freed, and the link to the remainder stays. -/
theorem not_restores_page : ¬ ∀ (h : Heap) (segs : List Segment) (size : BitVec 64),
    Represents h segs → NoFreeNeighbours segs → roundUp size ≠ 0 →
      (∃ t ∈ segs, t.Fits (roundUp size)) → Restores h segs size := by
  intro hall
  have hr := represents_onePage
  have hsep : NoFreeNeighbours ([] ++ [initialSegment 0x100000000000 1]) :=
    List.isChain_singleton _
  obtain ⟨fuel, p, h', hmalloc, -, hrep⟩ := hall _ [initialSegment 0x100000000000 1] 16 hr hsep
    (by decide) ⟨_, List.mem_cons_self, by decide⟩
  obtain ⟨h₁, hmalloc₁, hr₁, -⟩ := malloc_first 16 1 (L := []) (R := []) hr (by decide)
    (by simp) (by decide) (by decide)
  obtain ⟨rfl, rfl⟩ := Prod.mk.inj (malloc_unique hmalloc hmalloc₁)
  exact not_represents_free (L := []) (R := []) (u := ⟨0x100000000030, 4016, true⟩) hsep hr₁ rfl
    hrep

end EtaOs
