import EtaOs.Heap.Runs

/-!
# The list of headers

What the headers met from `heap_start` should be, read off memory, and that a heap which
shows a list of segments is of this kind.

The two notions are used in opposite directions.  `ListIntact` is what should hold of the code and
mentions memory only; the list of segments is what proofs are about.

* `ListIntact`: the headers tile the heap, with both links right and no two free neighbours.
* `NoFreeNeighbours`: no two neighbours on the list of segments are free.
* `Represents.listIntact`: such a list is intact in memory.
* `not_listIntact_of_length`: a header whose length changes alone breaks the list.
-/

namespace EtaOs

open ByteMemory HeapSegHeader LinkedList Tiling Relation

/-- **The headers met from `heap_start`** tile the heap: each is followed by the one its
payload ends at, and the one without a successor is `last_header` and ends with the heap.
`last` is the inverse of `next`, and no two neighbours are free. -/
structure ListIntact (h : Heap) : Prop where
  next_addr : ∀ a, Met h a → next h.mem a ≠ 0 →
    (next h.mem a).toNat = a.toNat + 32 + (length h.mem a).toNat
  final : ∀ a, Met h a → next h.mem a = 0 →
    a = h.lastHeader ∧ a.toNat + 32 + (length h.mem a).toNat = h.heapEnd.toNat
  final_exists : ∃ a, Met h a ∧ next h.mem a = 0
  inside : ∀ a, Met h a → h.heapStart.toNat ≤ a.toNat ∧
    a.toNat + 32 + (length h.mem a).toNat ≤ h.heapEnd.toNat
  covers : ∀ k, h.heapStart.toNat ≤ k → k < h.heapEnd.toNat →
    ∃! a, Met h a ∧ a.toNat ≤ k ∧ k < a.toNat + 32 + (length h.mem a).toNat
  last_next : ∀ a, Met h a → next h.mem a ≠ 0 → last h.mem (next h.mem a) = a
  next_last : ∀ a, Met h a → last h.mem a ≠ 0 →
    Met h (last h.mem a) ∧ next h.mem (last h.mem a) = a
  separated : ∀ a, Met h a → next h.mem a ≠ 0 →
    ¬ (HeapSegHeader.free h.mem a = true ∧ HeapSegHeader.free h.mem (next h.mem a) = true)

/-- No two neighbours are free. -/
def NoFreeNeighbours (segs : List Segment) : Prop :=
  segs.IsChain fun s t => ¬ (s.free = true ∧ t.free = true)

variable {h h' : Heap} {segs L R : List Segment} {s t : Segment}

/-! ## NoFreeNeighbours lists -/

/-- A list is separated around a segment, and on both sides of it. -/
theorem separated_middle : NoFreeNeighbours (L ++ s :: R) ↔
    NoFreeNeighbours L ∧ (∀ t ∈ L.getLast?, ¬ (t.free = true ∧ s.free = true)) ∧
      (∀ t ∈ R.head?, ¬ (s.free = true ∧ t.free = true)) ∧ NoFreeNeighbours R := by
  unfold NoFreeNeighbours
  rw [List.isChain_append, List.isChain_cons]
  constructor
  · rintro ⟨hL, ⟨hsR, hR⟩, hLs⟩
    exact ⟨hL, fun t ht => hLs t ht s rfl, hsR, hR⟩
  · rintro ⟨hL, hLs, hsR, hR⟩
    refine ⟨hL, ⟨hsR, hR⟩, fun t ht u hu => ?_⟩
    obtain rfl : s = u := by simpa using hu
    exact hLs t ht

/-- A segment may become free between neighbours in use. -/
theorem NoFreeNeighbours.release (hsep : NoFreeNeighbours (L ++ s :: R))
    (hL : ∀ t ∈ L.getLast?, t.free = false) (hR : ∀ t ∈ R.head?, t.free = false) :
    NoFreeNeighbours (L ++ { s with free := true } :: R) := by
  obtain ⟨hsepL, -, -, hsepR⟩ := separated_middle.mp hsep
  refine separated_middle.mpr ⟨hsepL, fun t ht hfree => ?_, fun t ht hfree => ?_, hsepR⟩
  · rw [hL t ht] at hfree
    exact absurd hfree.1 (by decide)
  · rw [hR t ht] at hfree
    exact absurd hfree.2 (by decide)

namespace Represents

/-- Nothing is behind a segment whose `next` is null. -/
theorem eq_nil_of_next (hr : Represents h (L ++ s :: R)) (hn : next h.mem s.addr = 0) : R = [] := by
  rw [hr.next_eq_behind] at hn
  cases R with
  | nil => rfl
  | cons t R => exact absurd hn (hr.addr_ne_zero (by simp))

/-- **The list of segments is intact in memory.** -/
theorem listIntact (hr : Represents h segs) (hsep : NoFreeNeighbours segs) : ListIntact h where
  next_addr := by
    intro a ha hn
    obtain ⟨s, hs, rfl⟩ := hr.met_iff.mp ha
    obtain ⟨L, R, rfl⟩ := List.append_of_mem hs
    rw [(hr.fields s hs).1]
    rw [hr.next_eq_behind] at hn ⊢
    cases R with
    | nil => exact absurd rfl hn
    | cons t R => exact (tiles_middle.mp hr.tiles).2.2.1
  final := by
    intro a ha hn
    obtain ⟨s, hs, rfl⟩ := hr.met_iff.mp ha
    obtain ⟨L, R, rfl⟩ := List.append_of_mem hs
    obtain rfl := hr.eq_nil_of_next hn
    rw [(hr.fields s hs).1]
    refine ⟨?_, (tiles_middle.mp hr.tiles).2.2⟩
    simpa using hr.lastHeader
  final_exists := by
    obtain ⟨L, s, rfl⟩ := hr.exists_last
    exact ⟨s.addr, hr.met_iff.mpr ⟨s, by simp, rfl⟩, hr.next_eq_behind⟩
  inside := by
    intro a ha
    obtain ⟨s, hs, rfl⟩ := hr.met_iff.mp ha
    rw [(hr.fields s hs).1]
    exact hr.bounds hs
  covers := by
    intro k hstart hend
    obtain ⟨s, hs, hlo, hhi⟩ := hr.tiles.exists_mem hstart hend
    refine ⟨s.addr, ⟨hr.met_iff.mpr ⟨s, hs, rfl⟩, hlo, by rwa [(hr.fields s hs).1]⟩, ?_⟩
    rintro a ⟨ha, hlo', hhi'⟩
    obtain ⟨t, ht, rfl⟩ := hr.met_iff.mp ha
    rw [(hr.fields t ht).1] at hhi'
    unfold Segment.lo at hlo
    unfold Segment.hi at hhi
    rcases hr.tiles.eq_or_apart hs ht with rfl | hapart
    · rfl
    · unfold Segment.lo Segment.hi at hapart
      omega
  last_next := by
    intro a ha hn
    obtain ⟨s, hs, rfl⟩ := hr.met_iff.mp ha
    exact hr.linked.prev_next (List.mem_map_of_mem hs) hn
  next_last := by
    intro a ha hl
    obtain ⟨s, hs, rfl⟩ := hr.met_iff.mp ha
    obtain ⟨hmem, hn⟩ := hr.linked.next_prev (List.mem_map_of_mem hs) hl
    exact ⟨hr.met_iff.mpr (List.mem_map.mp hmem), hn⟩
  separated := by
    intro a ha hn
    obtain ⟨s, hs, rfl⟩ := hr.met_iff.mp ha
    obtain ⟨L, R, rfl⟩ := List.append_of_mem hs
    rw [hr.next_eq_behind] at hn ⊢
    cases R with
    | nil => exact absurd rfl hn
    | cons t R =>
        have ht : t ∈ L ++ s :: t :: R := by simp
        show ¬ (_ ∧ HeapSegHeader.free h.mem t.addr = true)
        rw [(hr.fields s hs).2, (hr.fields t ht).2]
        have hst := hsep.right_of_append
        rw [List.isChain_cons_cons] at hst
        exact hst.1

/-- Following `next` along headers that are as the list has them. -/
theorem met_of_header (hr : Represents h (L ++ s :: R)) (hstart : h'.heapStart = h.heapStart)
    (hL : ∀ t ∈ L, header h'.mem t.addr = header h.mem t.addr) : Met h' s.addr := by
  have hzero := hr.zero_notMem
  have hlinked := hr.linked
  rw [List.map_append, List.map_cons] at hlinked hzero
  -- the links forward as they are now, back as they were
  have hprefix : Linked (next h'.mem) (last h.mem) 0 (L.map Segment.addr ++ [s.addr])
      (next h'.mem s.addr) := by
    obtain ⟨hl, hs, -⟩ := linked_append.mp hlinked
    refine linked_append.mpr ⟨hl.congr fun x hx => ?_, hs, rfl, trivial⟩
    obtain ⟨t, ht, rfl⟩ := List.mem_map.mp hx
    exact ⟨congrArg Header.next (hL t ht), rfl⟩
  have hzero' : (0 : Addr) ∉ L.map Segment.addr ++ [s.addr] := fun h0 =>
    hzero (by
      rcases List.mem_append.mp h0 with h0 | h0
      · exact List.mem_append_left _ h0
      · exact List.mem_append_right _ (List.mem_cons.mpr (Or.inl (List.mem_singleton.mp h0))))
  unfold Met
  rw [hstart]
  cases L with
  | nil =>
      rw [← hr.head_addr]
      exact ReflTransGen.refl
  | cons t L =>
      rw [← hr.head_addr (s := t)]
      refine hprefix.reached (fun h0 => hzero' (List.mem_cons_of_mem t.addr h0)) ?_
      simp

end Represents

/-- **A header whose length alone changes breaks the list**, when the headers in front of it
stay and there is one behind it. -/
theorem not_listIntact_of_length {len : BitVec 64} (hr : Represents h (L ++ s :: t :: R))
    (hstart : h'.heapStart = h.heapStart)
    (hL : ∀ u ∈ L, header h'.mem u.addr = header h.mem u.addr)
    (hs : header h'.mem s.addr = { header h.mem s.addr with length := len })
    (hlen : len ≠ s.length) : ¬ ListIntact h' := by
  intro hintact
  have hmet := hr.met_of_header hstart hL
  have hnext : next h'.mem s.addr = t.addr := by
    rw [next_eq, hs]
    exact hr.next_eq_behind
  have hne : next h'.mem s.addr ≠ 0 := by
    rw [hnext]
    exact hr.addr_ne_zero (by simp)
  have haddr := hintact.next_addr s.addr hmet hne
  rw [hnext, length_eq, hs] at haddr
  have htile : t.lo = s.hi := (tiles_middle.mp hr.tiles).2.2.1
  unfold Segment.lo Segment.hi at htile
  refine hlen (BitVec.eq_of_toNat_eq ?_)
  show len.toNat = s.length.toNat
  have haddr' : t.addr.toNat = s.addr.toNat + 32 + len.toNat := haddr
  omega

end EtaOs
