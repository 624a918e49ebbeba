import EtaOs.Heap.Malloc

/-!
# `split` keeps the list of segments

Wherever a segment stands in the list, `split` either returns null and leaves the heap as it
is, or puts one new segment behind it.

This is the one operation on which all others rely, and the statement covers the head of the list,
its middle and its tail, a segment in use as well as a free one.  Everything that is not said to
change stays: the links of the other headers, their flags, and the bytes of the payloads.

* `SplitOff`: what the heap shows behind a `split` that is made.
* `split_eq_zero_iff`: when nothing is split off.
* `split_keeps_list`: the two ways `split` can end.
-/

namespace EtaOs

open ByteMemory HeapSegHeader LinkedList Tiling

/-- **What a `split` leaves** of the list `L ++ s :: R`: the segment `s` with `r` bytes of
payload, then `u` with the rest of them.  The other segments keep their bytes, except that
the `last` link of the one that followed `s` now names `u`. -/
structure SplitOff (h : Heap) (L : List Segment) (s : Segment) (R : List Segment)
    (r : BitVec 64) (u : Segment) (h' : Heap) : Prop where
  represents : Represents h' (L ++ { s with length := r } :: u :: R)
  sameHeap : SameHeap h h'
  follows : u.addr.toNat = s.addr.toNat + 32 + r.toNat
  rest : u.length.toNat = s.length.toNat - r.toNat - 32
  room : 16 ≤ u.length.toNat
  flag : u.free = s.free
  kept : ∀ t ∈ L ++ R.tail, SameOn t.addr (32 + t.length.toNat) h.mem h'.mem
  relinked : ∀ t ∈ R.head?,
    SameOn t.addr (32 + t.length.toNat) (setLast h.mem t.addr u.addr) h'.mem

variable {h : Heap} {L R : List Segment} {s : Segment} {r : BitVec 64}

/-- The new segment of a `split` that is made. -/
theorem Represents.splitOff (hr : Represents h (L ++ s :: R)) (hle : r ≤ s.length)
    (hr16 : ¬ r < 0x10) (hpos : ¬ (s.length - r - 32).slt 0x10) :
    SplitOff h L s R r ⟨s.addr + r + 32, s.length - r - 32, s.free⟩
      (EtaOs.HeapSegHeader.split s.addr r h).2 := by
  have hfits := room_of_not_slt hle hpos
  have hhi := (hr.bounds (s := s) (by simp)).2
  have hend := h.heapEnd.isLt
  have hrest : (s.length - r - 32).toNat = s.length.toNat - r.toNat - 32 := by bv_omega
  refine ⟨hr.split hr16 hfits hpos, split_sameHeap _ _ _, ?_, hrest, ?_, rfl, ?_, ?_⟩
  · show (s.addr + r + 32).toNat = s.addr.toNat + 32 + r.toNat
    bv_omega
  · show 16 ≤ (s.length - r - 32).toNat
    omega
  · exact fun t ht => hr.split_kept hr16 hfits hpos ht
  · exact fun t ht => hr.split_relinked hr16 hfits hpos ht

/-- **Nothing is split off** when one of the two parts is too small for a payload.  The
length of the second is signed. -/
theorem split_eq_zero_iff (hr : Represents h (L ++ s :: R)) (hle : r ≤ s.length) :
    (split s.addr r h).1 = 0 ↔ r < 0x10 ∨ (s.length - r - 32).slt 0x10 := by
  have hlen := (hr.fields s (by simp)).1
  constructor
  · intro h0
    by_contra hsmall
    obtain ⟨hr16, hpos⟩ := not_or.mp hsmall
    have hoff := (hr.splitOff hle hr16 hpos).follows
    rw [← (split_globals hr16 (hlen ▸ hpos)).1, h0] at hoff
    exact absurd hoff (by simp only [BitVec.ofNat_eq_ofNat, BitVec.toNat_ofNat]; omega)
  · intro hsmall
    rw [split_null (hlen ▸ hsmall)]

/-- **`split` keeps the list of segments.**  Where it returns null the heap is as before;
otherwise the segment it returns follows the one that was split. -/
theorem split_keeps_list (hr : Represents h (L ++ s :: R)) (hle : r ≤ s.length) :
    ((split s.addr r h).1 = 0 → (split s.addr r h).2 = h) ∧
      ((split s.addr r h).1 ≠ 0 →
        ∃ u, (split s.addr r h).1 = u.addr ∧ SplitOff h L s R r u (split s.addr r h).2) := by
  have hlen := (hr.fields s (by simp)).1
  refine ⟨fun h0 => ?_, fun hne => ?_⟩
  · have hsmall := (split_eq_zero_iff hr hle).mp h0
    rw [split_null (hlen ▸ hsmall)]
  · obtain ⟨hr16, hpos⟩ := not_or.mp ((not_congr (split_eq_zero_iff hr hle)).mp hne)
    exact ⟨_, (split_globals hr16 (hlen ▸ hpos)).1, hr.splitOff hle hr16 hpos⟩

/-- The first of two segments on a page, split so that the smallest payload is left. -/
theorem split_keeps_list_page : ∃ h u,
    h = (split 0x100000000000 64 (initHeap 0x100000000000 1 default)).2 ∧
      (split 0x100000000000 16 h).1 = u.addr ∧
        SplitOff h [] ⟨0x100000000000, 64, true⟩ [⟨0x100000000060, 3968, true⟩] 16 u
          (split 0x100000000000 16 h).2 := by
  have hr := represents_onePage.split (L := []) (R := []) (r := 64) (by decide) (by decide)
    (by decide)
  have hne : (split 0x100000000000 16
      (split 0x100000000000 64 (initHeap 0x100000000000 1 default)).2).1 ≠ 0 := by
    intro h0
    exact absurd ((split_eq_zero_iff hr (L := []) (by decide)).mp h0) (by decide)
  obtain ⟨u, hu, hoff⟩ :=
    (split_keeps_list (L := []) (s := ⟨0x100000000000, 64, true⟩) hr (by decide)).2 hne
  exact ⟨_, u, rfl, hu, hoff⟩

end EtaOs
