import EtaOs.Heap.Growth

/-!
# The headers that are accessed

Every field that `malloc` and `free` access should belong to a header in the heap.  For `free`
this holds because the links of the headers stay among the headers, whatever is merged.  For
`malloc` it fails when the last segment is split, since `split` stores the new header in the
`last` field of a successor that is not there, and when `heap_end` wraps.

Whether the accesses stay inside cannot be read off the result of a call, so the functions are run
with the record of `Heap/Traced.lean`.  The requests that go wrong are those for which the segment
that is found is the last one and is split, or for which an extension wraps.

* `ClosedLinks`: headers that lie in the heap and whose links stay among them.
* `ClosedLinks.freeLogged`: the accesses of `free`.
* `MetadataInside`, `metadataInside_iff`: the heaps and requests whose accesses stay inside.
* `not_metadataInside_page`: the first request on a new heap.
-/

namespace EtaOs

open ByteMemory HeapSegHeader LinkedList Tiling Emitting Prog

variable {h g : Heap} {L R segs : List Segment} {s z : Segment} {r size : BitVec 64} {a b v : Addr}
  {A : Set Addr}

/-! ## Links that stay among the headers -/

/-- **A set of headers that the links do not leave.**  The headers lie in the heap, apart from
one another, and `next` and `last` are null or lead to a header of the set. -/
structure ClosedLinks (h : Heap) (A : Set Addr) : Prop where
  inside : ∀ a ∈ A, (h.access a).Inside
  apart : ∀ a ∈ A, ∀ b ∈ A, a ≠ b → Apart a 32 b 32
  next_mem : ∀ a ∈ A, next h.mem a ≠ 0 → next h.mem a ∈ A
  last_mem : ∀ a ∈ A, last h.mem a ≠ 0 → last h.mem a ∈ A

/-- The headers of the list are such a set. -/
theorem Represents.closedLinks (hr : Represents h segs) :
    ClosedLinks h {a | a ∈ segs.map Segment.addr} where
  inside := by
    intro a ha
    obtain ⟨s, hs, rfl⟩ := List.mem_map.mp ha
    exact hr.inside hs
  apart := by
    intro a ha b hb hne
    obtain ⟨s, hs, rfl⟩ := List.mem_map.mp ha
    obtain ⟨t, ht, rfl⟩ := List.mem_map.mp hb
    have hst : s ≠ t := fun heq => hne (congrArg Segment.addr heq)
    exact hr.apart_of_le hs ht ((hr.tiles.eq_or_apart hs ht).resolve_left hst) s.within_header
      t.within_header
  next_mem := fun _ ha hn => (hr.linked.next_mem ha).resolve_left hn
  last_mem := fun _ ha hl => (hr.linked.next_prev ha hl).1

namespace ClosedLinks

/-- A store that leaves the links of a closed set alone, or sets a `last` to a header of it. -/
theorem store (hc : ClosedLinks h A) (hstart : g.heapStart = h.heapStart)
    (hend : g.heapEnd = h.heapEnd) (hnext : ∀ a ∈ A, next g.mem a = next h.mem a)
    (hlast : ∀ a ∈ A, last g.mem a = last h.mem a ∨ last g.mem a ∈ A) : ClosedLinks g A where
  inside := by
    intro a ha
    obtain ⟨hlo, hhi⟩ := hc.inside a ha
    rw [← hstart] at hlo
    rw [← hend] at hhi
    exact ⟨hlo, hhi⟩
  apart := hc.apart
  next_mem := by
    intro a ha hn
    rw [hnext a ha] at hn ⊢
    exact hc.next_mem a ha hn
  last_mem := by
    intro a ha hl
    rcases hlast a ha with heq | hmem
    · rw [heq] at hl ⊢
      exact hc.last_mem a ha hl
    · exact hmem

/-- A store to a field of a header that is no link. -/
theorem store_field {m : Mem} (hc : ClosedLinks h A) (ha : a ∈ A)
    (hself : (header m a).next = (header h.mem a).next ∧ (header m a).last = (header h.mem a).last)
    (hother : ∀ b, Apart a 32 b 32 → header m b = header h.mem b) :
    ClosedLinks { h with mem := m } A := by
  have hlinks : ∀ b ∈ A, next m b = next h.mem b ∧ last m b = last h.mem b := by
    intro b hb
    by_cases hab : a = b
    · exact hab ▸ hself
    · rw [next_eq, last_eq, hother b (hc.apart a ha b hb hab)]
      exact ⟨rfl, rfl⟩
  exact hc.store rfl rfl (fun b hb => (hlinks b hb).1) fun b hb => Or.inl (hlinks b hb).2

theorem next_setLast (hc : ClosedLinks h A) (ha : a ∈ A) (hb : b ∈ A) (v : Addr) :
    next (setLast h.mem a v) b = next h.mem b := by
  by_cases hab : a = b
  · rw [← hab, next_eq, header_setLast_self, next_eq]
  · rw [next_eq, header_setLast (apart_lastField (hc.apart a ha b hb hab)), next_eq]

/-- The `last` field of a header is set to another one. -/
theorem setLast (hc : ClosedLinks h A) (ha : a ∈ A) (hv : v ∈ A) :
    ClosedLinks { h with mem := setLast h.mem a v } A := by
  refine hc.store rfl rfl (fun b hb => hc.next_setLast ha hb v) fun b hb => ?_
  by_cases hab : a = b
  · refine Or.inr ?_
    show last (HeapSegHeader.setLast h.mem a v) b ∈ A
    rw [← hab, last_eq, header_setLast_self]
    exact hv
  · refine Or.inl ?_
    show last (HeapSegHeader.setLast h.mem a v) b = _
    rw [last_eq, header_setLast (apart_lastField (hc.apart a ha b hb hab)), last_eq]

theorem setLength (hc : ClosedLinks h A) (ha : a ∈ A) (len : BitVec 64) :
    ClosedLinks { h with mem := setLength h.mem a len } A := by
  refine hc.store_field ha ?_ fun b hab => header_setLength hab len
  rw [header_setLength_self]
  exact ⟨rfl, rfl⟩

theorem setFree (hc : ClosedLinks h A) (ha : a ∈ A) (f : Bool) :
    ClosedLinks { h with mem := setFree h.mem a f } A := by
  refine hc.store_field ha ?_ fun b hab => header_setFree hab f
  rw [header_setFree_self]
  exact ⟨rfl, rfl⟩

theorem setLastHeader (hc : ClosedLinks h A) (v : Addr) :
    ClosedLinks { h with lastHeader := v } A :=
  hc.store rfl rfl (fun _ _ => rfl) fun _ _ => Or.inl rfl

/-- **The accesses of `combine_forward`** from a header of the set. -/
theorem combineForwardLogged (hc : ClosedLinks h A) (ha : a ∈ A) :
    (∀ e ∈ ((combineForwardLogged a).run h).events, e.Inside) ∧
      ClosedLinks ((combineForwardLogged a).run h).state A := by
  have hina := hc.inside a ha
  unfold EtaOs.combineForwardLogged
  by_cases hnext : next h.mem a = 0
  · simp only [run_bind, run_readField, hnext, if_true, run_pure, List.forall_mem_append,
      List.forall_mem_singleton]
    exact ⟨⟨hina, by simp⟩, hc⟩
  · have hb := hc.next_mem a ha hnext
    have hinb := hc.inside _ hb
    cases hfree : HeapSegHeader.free h.mem (next h.mem a) with
    | false =>
        simp only [run_bind, run_readField, hnext, hfree, if_true, if_false, run_pure,
          List.forall_mem_append, List.forall_mem_singleton]
        exact ⟨⟨hina, hina, hinb, by simp⟩, hc⟩
    | true =>
        by_cases hbehind : next h.mem (next h.mem a) = 0
        · simp only [run_bind, run_readField, run_modify, run_emit, run_writeField,
            hnext, hfree, hbehind, if_false, ne_eq, not_true_eq_false, Bool.true_eq_false,
            List.forall_mem_append, List.forall_mem_singleton]
          exact ⟨⟨hina, hina, hinb, hina, by simp, hina, hinb, hina, hina, hinb, trivial, hina⟩,
            (hc.setLength ha _).setLastHeader _⟩
        · have hd := hc.next_mem _ hb hbehind
          have hind := hc.inside _ hd
          simp only [run_bind, run_readField, run_modify, run_emit, run_writeField,
            hnext, hfree, hbehind, if_false, ne_eq, not_false_eq_true, if_true,
            Bool.true_eq_false, hc.next_setLast hd ha, List.forall_mem_append,
            List.forall_mem_singleton]
          exact ⟨⟨hina, hina, hinb, hina, by simp, hina, hinb, hina, hinb, hind, hina, hina, hinb,
            trivial, hina⟩, ((hc.setLast hd ha).setLength ha _).setLastHeader _⟩

/-- **The accesses of `combine_backward`** from a header of the set. -/
theorem combineBackwardLogged (hc : ClosedLinks h A) (ha : a ∈ A) :
    ∀ e ∈ ((combineBackwardLogged a).run h).events, e.Inside := by
  have hina := hc.inside a ha
  unfold EtaOs.combineBackwardLogged
  by_cases hlast : last h.mem a = 0
  · simp only [run_bind, run_readField, hlast, ne_eq, not_true_eq_false, if_false, run_pure,
      List.forall_mem_append, List.forall_mem_singleton]
    exact ⟨hina, by simp⟩
  · have hb := hc.last_mem a ha hlast
    have hinb := hc.inside _ hb
    cases hfree : HeapSegHeader.free h.mem (last h.mem a) with
    | false =>
        simp only [run_bind, run_readField, hlast, hfree, ne_eq, not_false_eq_true, if_true,
          if_false, Bool.false_eq_true, run_pure, List.forall_mem_append,
          List.forall_mem_singleton]
        exact ⟨hina, hina, hinb, by simp⟩
    | true =>
        simp only [run_bind, run_readField, hlast, hfree, ne_eq, not_false_eq_true, if_true,
          List.forall_mem_append, List.forall_mem_singleton]
        exact ⟨hina, hina, hinb, hina, (hc.combineForwardLogged hb).1⟩

/-- **The accesses of `free`** for the payload of a header of the set. -/
theorem freeLogged (hc : ClosedLinks h A) (ha : a ∈ A) :
    ∀ e ∈ ((freeLogged (a + 32)).run h).events, e.Inside := by
  have hseg : a + 32 - 32 = a := by bv_omega
  have hfree := hc.setFree ha true
  obtain ⟨hforward, hlinks⟩ := hfree.combineForwardLogged ha
  unfold EtaOs.freeLogged
  simp only [hseg, run_bind, run_writeField, List.forall_mem_append, List.forall_mem_singleton]
  exact ⟨hc.inside a ha, hforward, hlinks.combineBackwardLogged ha⟩

end ClosedLinks

/-- **The accesses of `free`** stay in the heap. -/
theorem Represents.freeLogged_inside (hr : Represents h segs) (hs : s ∈ segs) :
    ∀ e ∈ ((freeLogged (s.addr + 32)).run h).events, e.Inside :=
  hr.closedLinks.freeLogged (List.mem_map_of_mem hs)

/-! ## `malloc` -/

/-- Every header that `malloc` accesses lies in the heap. -/
def AccessesInside (h : Heap) (size : BitVec 64) : Prop :=
  ∀ fuel, ∀ e ∈ ((mallocLogged fuel size).run h).events, e.Inside

/-- The accesses of one run with a value are all there are. -/
theorem accessesInside_iff_run {fuel : ℕ} {p : Addr} {h' : Heap} {es : List HeapEvent}
    (hrun : (mallocLogged fuel size).run h = ⟨some p, h', es⟩) :
    AccessesInside h size ↔ ∀ e ∈ es, e.Inside :=
  ⟨fun hall e he => hall fuel e (by rwa [hrun]),
    fun hes fuel' e he => hes e (mallocLogged_subset hrun fuel' he)⟩

/-- The rounding of a size accesses no header. -/
theorem roundLogged_inside (unit size : BitVec 64) (h : Heap) :
    ∀ e ∈ ((roundLogged unit size).run h).events, e.Inside := by
  unfold roundLogged
  split_ifs
  · exact fun e he => List.mem_singleton.mp he ▸ trivial
  · exact fun e he => absurd he List.not_mem_nil

/-- **A request that fits**: `split` accesses the header behind the segment, which is the null
one when there is none. -/
theorem accessesInside_fits (hr : Represents h (L ++ s :: R)) (hne : roundUp size ≠ 0)
    (hL : ∀ t ∈ L, ¬ t.Fits (roundUp size)) (hs : s.Fits (roundUp size)) :
    AccessesInside h size ↔ (R = [] → ¬ Splits (roundUp size) s.length) := by
  obtain ⟨h', es, hrun, -, -, hes⟩ := hr.mallocLogged_first hne hL hs
  rw [accessesInside_iff_run hrun, hes _ acceptsExact_inside]
  constructor
  · rintro ⟨-, -, hsplit, -⟩ rfl hsplits
    have hnull : h.heapStart.toNat ≤ 0 := (hsplit hsplits).1.1
    have hlow := hr.low
    omega
  · intro hlast
    refine ⟨fun t ht => hr.inside (List.mem_append_left _ ht), hr.inside (by simp),
      fun hsplits => ?_, fun _ => trivial⟩
    cases R with
    | nil => exact absurd hsplits (hlast rfl)
    | cons t R =>
        obtain ⟨hlo, hhi⟩ := hr.bounds (s := s) (by simp)
        have hE := h.heapEnd.isLt
        have hlong := hsplits.1
        have hnew : (s.addr + roundUp size + 32).toNat =
            s.addr.toNat + (roundUp size).toNat + 32 := by bv_omega
        exact ⟨hr.inside (by simp), by rw [hnew]; omega, by rw [hnew]; omega⟩

/-- The new segment is accessed after the pages are mapped. -/
theorem access_mem_extendHeapLogged (r : BitVec 64) (h : Heap) :
    (growLoop (pageRoundUp r / 0x1000).toNat h).access h.heapEnd ∈
      ((extendHeapLogged r).run h).events := by
  obtain ⟨hvalue, hstate⟩ := roundLogged_extend r h
  unfold extendHeapLogged
  simp only [run_bind, run_emit, run_get, run_modify, run_writeField, hvalue, hstate,
    List.nil_append, List.mem_append, List.mem_singleton]
  exact Or.inr (Or.inr (Or.inl trivial))

/-- **When `heap_end` wraps**, the new segment lies behind it. -/
theorem not_accessesInside_wrap (hr : Represents h (L ++ [z]))
    (hneeds : NeedsExtension (L ++ [z]) (roundUp size))
    (hpages : pagesUp (roundUp size).toNat < 2 ^ 64)
    (hwrap : 2 ^ 64 ≤ h.heapEnd.toNat + pagesUp (roundUp size).toNat) :
    ¬ AccessesInside h size := by
  intro hall
  obtain ⟨es, -, hrun⟩ := mallocLogged_grows hr hneeds.1 hneeds.2 (Nat.le_refl L.length)
  have hmem := access_mem_extendHeapLogged (roundUp size) h
  have hinside := hall (L.length + 1) _ (by
    rw [hrun]
    exact List.mem_append_right _ (List.mem_append_left _ hmem))
  have hcount := pageCount_eq hpages
  have hend : (growLoop (pageRoundUp (roundUp size) / 0x1000).toNat h).heapEnd.toNat =
      h.heapEnd.toNat + pagesUp (roundUp size).toNat - 2 ^ 64 := by
    rw [growLoop_eq, ← hcount]
    show (h.heapEnd + 4096 * BitVec.ofNat 64 _).toNat = _
    bv_omega
  have hle : h.heapEnd.toNat + 32 ≤ _ := hinside.2
  omega

/-- The call of `malloc` after an extension is part of the run. -/
theorem AccessesInside.extendHeap (hall : AccessesInside h size) (hr : Represents h (L ++ [z]))
    (hneeds : NeedsExtension (L ++ [z]) (roundUp size)) :
    AccessesInside (extendHeap (roundUp size) h) (roundUp size) := by
  intro fuel e he
  obtain ⟨es, -, hrun⟩ := mallocLogged_grows hr hneeds.1 hneeds.2 (le_max_right fuel L.length)
  have hlong := (mallocLogged_continues_le (le_max_left fuel L.length) (roundUp size)).events
    (EtaOs.extendHeap (roundUp size) h)
  refine hall (max fuel L.length + 1) e ?_
  rw [hrun]
  exact List.mem_append_right _ (List.mem_append_right _ (hlong.subset he))

/-- **A request that extends the heap.** -/
theorem accessesInside_extended (hr : Represents h (L ++ [z]))
    (hneeds : NeedsExtension (L ++ [z]) (roundUp size)) (haligned : h.heapEnd.toNat % 4096 = 0)
    (hsize : (roundUp size).toNat ≤ 2 ^ 64 - 4096) :
    AccessesInside h size ↔ Extendable h z (roundUp size) ∧
      (z.free = true ∨ pagesUp (roundUp size).toNat < (roundUp size).toNat + 80) := by
  by_cases hgrow : Extendable h z (roundUp size)
  · obtain ⟨fuel, p, h', es, hrun, -, -, hinside⟩ := mallocLogged_extended hr hneeds hgrow hsize
    rw [accessesInside_iff_run hrun, hinside]
    exact (and_iff_right hgrow).symm
  · refine iff_of_false (fun hall => hgrow ?_) fun hcond => hgrow hcond.1
    have hpages := pagesUp_lt hsize
    have hround := pageRoundUp_toNat hpages
    have hfirst : h.heapEnd.toNat + pagesUp (roundUp size).toNat < 2 ^ 64 := by
      by_contra hwrap
      exact not_accessesInside_wrap hr hneeds hpages (by omega) hall
    refine ⟨haligned, by rwa [hround], fun hz hshort => ?_⟩
    rw [hround] at hshort ⊢
    by_contra hwrap
    -- the second extension is the one that wraps
    obtain ⟨u, -, hulen, -, hr'⟩ := hr.grown_last hz (roundUp_pos hneeds.1) haligned hfirst
    obtain ⟨-, hend⟩ := extendHeap_bounds hfirst
    have hagain := hneeds.again (u := u) (by omega)
    refine not_accessesInside_wrap hr' hagain ?_ ?_ (hall.extendHeap hr hneeds)
    · rwa [roundUp_roundUp]
    · rw [roundUp_roundUp, hend]
      omega

/-- **The accesses of `malloc` and `free`**: those of a request, and those of freeing any
segment of the list, belong to headers in the heap. -/
def MetadataInside (h : Heap) (segs : List Segment) (size : BitVec 64) : Prop :=
  AccessesInside h size ∧ ∀ s ∈ segs, ∀ e ∈ ((freeLogged (s.addr + 32)).run h).events, e.Inside

/-- **When the accesses stay in the heap.**  For every heap that shows a list of segments, ends
with a page when it has to grow, and every request of at most `2 ^ 40` bytes: exactly when the
request is not for a part of the last segment that is split off, `heap_end` does not wrap, and
the extension is merged, or leaves no room for a split. -/
theorem metadataInside_iff (hr : Represents h (L ++ [z])) (hsize : size.toNat ≤ 2 ^ 40)
    (haligned : NeedsExtension (L ++ [z]) (roundUp size) → h.heapEnd.toNat % 4096 = 0) :
    MetadataInside h (L ++ [z]) size ↔
      (FindsFit (L ++ [z]) (roundUp size) z → ¬ Splits (roundUp size) z.length) ∧
      (NeedsExtension (L ++ [z]) (roundUp size) → Extendable h z (roundUp size) ∧
        (z.free = true ∨ pagesUp (roundUp size).toNat < (roundUp size).toNat + 80)) := by
  have hfree : ∀ s ∈ L ++ [z], ∀ e ∈ ((freeLogged (s.addr + 32)).run h).events, e.Inside :=
    fun s hs => hr.freeLogged_inside hs
  unfold MetadataInside
  rw [and_iff_left hfree]
  constructor
  · intro hall
    refine ⟨?_, fun hneeds => ?_⟩
    · rintro ⟨hne, L', R, heq, hL, hs⟩
      rw [heq] at hr
      refine (accessesInside_fits hr hne hL hs).mp hall ?_
      -- the last segment is nowhere else on the list
      rcases List.eq_nil_or_concat R with rfl | ⟨R, w, rfl⟩
      · rfl
      · have hconcat : L ++ [z] = (L' ++ z :: R) ++ [w] := by simpa using heq
        obtain rfl : z = w := List.singleton_inj.mp (List.append_inj' hconcat rfl).2
        have hbehind : z.hi ≤ z.lo := hr.tiles.behind (by simp)
        unfold Segment.lo Segment.hi at hbehind
        omega
    · have hround := roundUp_toNat size hneeds.1
      exact (accessesInside_extended hr hneeds (haligned hneeds) (by omega)).mp hall
  · rintro ⟨hfits, hgrows⟩
    rcases request_cases (L ++ [z]) (roundUp size) with h0 | ⟨s, hfit⟩ | hneeds
    · exact (accessesInside_iff_run (mallocLogged_zero h0 0 h)).mpr (roundLogged_inside _ _ h)
    · obtain ⟨hne, L', R, heq, hL, hs⟩ := id hfit
      rw [heq] at hr
      refine (accessesInside_fits hr hne hL hs).mpr fun hR => ?_
      subst hR
      obtain rfl : z = s := by simpa using congrArg List.getLast? heq
      exact hfits hfit
    · have hround := roundUp_toNat size hneeds.1
      exact (accessesInside_extended hr hneeds (haligned hneeds) (by omega)).mpr (hgrows hneeds)

/-- A request that extends a new heap of one page. -/
theorem metadataInside_page : MetadataInside (initHeap 0x100000000000 1 default)
    [initialSegment 0x100000000000 1] 8192 := by
  have hr := represents_onePage
  refine (metadataInside_iff (L := []) hr (by decide) fun _ => by decide).mpr ⟨?_, fun _ => ?_⟩
  · rintro ⟨-, L', R, -, -, hs⟩
    exact absurd hs (by decide)
  · exact ⟨⟨by decide, by decide, by decide⟩, Or.inl rfl⟩

/-- **The first request on a new heap** splits its only segment, and `split` stores through the
null successor. -/
theorem not_metadataInside_page : ¬ ∀ (h : Heap) (segs : List Segment) (size : BitVec 64),
    Represents h segs → size.toNat ≤ 2 ^ 40 → MetadataInside h segs size := by
  intro hall
  have hr := represents_onePage
  obtain ⟨hinside, -⟩ := hall _ _ 16 hr (by decide)
  have hne : roundUp 16 ≠ 0 := by decide
  have hfits := accessesInside_fits (L := []) hr hne (by simp) (by decide)
  exact hfits.mp hinside rfl ⟨by decide, by decide⟩

end EtaOs
