import EtaOs.Heap.HeaderList

/-!
# Merging segments

`combine_forward` makes a segment longer by the free segment behind it and leaves the link
to that segment in place.  A merge therefore breaks the list of headers, and `free` leaves
it intact exactly when both neighbours are in use.

`combine_backward` is the same call made on the segment in front, so one lemma covers both.  The
header that has been absorbed is met by the next `malloc` all the same, as a free segment of its
own, and a segment handed out there is a part of the longer one.

* `header_combineForward`: the stores of a merge.
* `listIntact_free_iff`: the calls of `free` that leave the list intact.
-/

namespace EtaOs

open ByteMemory HeapSegHeader LinkedList Tiling Relation

variable {h : Heap} {L R : List Segment} {s t u : Segment}

/-- **The stores of a merge**: the length of the header, and the `last` field behind the
header it swallows. -/
theorem header_combineForward {a b : Addr} (hn : next h.mem a = b) (hb : b ≠ 0)
    (hfree : HeapSegHeader.free h.mem b = true)
    (ha : next h.mem b ≠ 0 → Apart (next h.mem b + 16) 8 a 32)
    (hb' : next h.mem b ≠ 0 → Apart (next h.mem b + 16) 8 b 32) :
    let m := (combineForward a h).mem
    header m a = { header h.mem a with length := length h.mem a + length h.mem b + 32 } ∧
      ∀ x, Apart a 32 x 32 → (next h.mem b ≠ 0 → Apart (next h.mem b + 16) 8 x 32) →
        header m x = header h.mem x := by
  generalize hm : (if next h.mem b ≠ 0 then setLast h.mem (next h.mem b) a else h.mem) = m₁
  have hsame : ∀ x, (next h.mem b ≠ 0 → Apart (next h.mem b + 16) 8 x 32) →
      header m₁ x = header h.mem x := by
    intro x hx
    rw [← hm]
    split_ifs with h0
    · exact header_setLast (hx h0) a
    · rfl
  have hstore : (combineForward a h).mem =
      setLength m₁ a (length h.mem a + length h.mem b + 32) := by
    have hna : next m₁ a = b := by rw [next_eq, hsame a ha, ← next_eq, hn]
    have hla : length m₁ a = length h.mem a := by rw [length_eq, hsame a ha, length_eq]
    have hlb : length m₁ b = length h.mem b := by rw [length_eq, hsame b hb', length_eq]
    unfold combineForward
    rw [hn, if_neg hb, if_neg (by rw [hfree]; decide)]
    simp only [hm, hna, hla, hlb]
  rw [hstore]
  refine ⟨?_, fun x hax hx => ?_⟩
  · rw [header_setLength_self, hsame a ha]
  · rw [header_setLength hax, hsame x hx]

/-- **A merge on the list**, where the segment that is swallowed may have another length
than the list says: the segment in front grows, and no header before it changes. -/
theorem Represents.header_merge {g : Heap} {len : BitVec 64}
    (hr : Represents h (L ++ s :: t :: R))
    (hL : ∀ w ∈ L ++ [s], header g.mem w.addr = header h.mem w.addr)
    (ht : header g.mem t.addr = { header h.mem t.addr with length := len })
    (hfree : t.free = true) :
    header (combineForward s.addr g).mem s.addr =
        { header h.mem s.addr with length := s.length + len + 32 } ∧
      ∀ w ∈ L, header (combineForward s.addr g).mem w.addr = header h.mem w.addr := by
  have hs : s ∈ L ++ s :: t :: R := by simp
  have htm : t ∈ L ++ s :: t :: R := by simp
  have hr' : Represents h ((L ++ [s]) ++ t :: R) := by rwa [List.append_assoc]
  have hbehind : ∀ w ∈ L ++ [s, t], Apart (next g.mem t.addr + 16) 8 w.addr 32 := by
    intro w hw
    have hnext : next g.mem t.addr = next h.mem t.addr := by rw [next_eq, ht, next_eq]
    rw [hnext, hr'.next_eq_behind]
    refine hr'.apart_behind (t := w) ?_ w.within_header
    simp only [List.mem_append, List.mem_cons, List.not_mem_nil, or_false] at hw ⊢
    tauto
  have hns : next g.mem s.addr = t.addr := by
    rw [next_eq, hL s (by simp)]
    exact hr.next_eq_behind
  have htfree : HeapSegHeader.free g.mem t.addr = true := by
    rw [free_eq, ht]
    exact (hr.fields t htm).2.trans hfree
  obtain ⟨hself, hother⟩ := header_combineForward hns (hr.addr_ne_zero htm) htfree
    (fun _ => hbehind s (by simp)) (fun _ => hbehind t (by simp))
  refine ⟨?_, fun w hw => ?_⟩
  · rw [hself, length_eq, length_eq, ht, hL s (by simp), ← length_eq, (hr.fields s hs).1]
  · rw [hother w.addr (hr.apart_header (List.mem_append_left _ hw) s.within_header)
      fun _ => hbehind w (List.mem_append_left _ hw)]
    exact hL w (List.mem_append_left _ hw)

/-- **A merge breaks the list.** -/
theorem not_listIntact_combineForward {g : Heap} {len : BitVec 64}
    (hr : Represents h (L ++ s :: t :: R)) (hstart : g.heapStart = h.heapStart)
    (hL : ∀ w ∈ L ++ [s], header g.mem w.addr = header h.mem w.addr)
    (ht : header g.mem t.addr = { header h.mem t.addr with length := len })
    (hfree : t.free = true) (hlen : len + 32 ≠ 0) : ¬ ListIntact (combineForward s.addr g) := by
  obtain ⟨hself, hother⟩ := hr.header_merge hL ht hfree
  refine not_listIntact_of_length hr ((combineForward_sameHeap _ _).heapStart.trans hstart) hother
    hself ?_
  intro heq
  exact hlen (by bv_omega)

/-- The header of a segment has the length of the list. -/
theorem Represents.header_length (hr : Represents h L) (hs : s ∈ L) :
    header h.mem s.addr = { header h.mem s.addr with length := s.length } := by
  rw [← (hr.fields s hs).1]
  rfl

/-- The payloads of two segments and a header do not fill the address space. -/
theorem Represents.length_add_ne_zero (hr : Represents h (L ++ s :: t :: R)) :
    t.length + 32 ≠ 0 ∧ s.length + t.length + 32 + 32 ≠ 0 := by
  have hend := h.heapEnd.isLt
  have hbound := (hr.bounds (s := t) (by simp)).2
  have htile : t.lo = s.hi := (tiles_middle.mp hr.tiles).2.2.1
  unfold Segment.lo Segment.hi at htile
  constructor <;> bv_omega

/-- **The merges of `free` break the list** when a neighbour is free. -/
theorem not_listIntact_merges (hr : Represents h (L ++ s :: R)) (hs : s.free = true)
    (hn : (∃ t ∈ R.head?, t.free = true) ∨ ∃ t ∈ L.getLast?, t.free = true) :
    ¬ ListIntact (combineBackward s.addr (combineForward s.addr h)) := by
  by_cases hR : ∃ t ∈ R.head?, t.free = true
  · obtain ⟨t, ht, hfree⟩ := hR
    cases R with
    | nil => exact absurd ht (by simp)
    | cons t' R =>
        obtain rfl : t' = t := by simpa using ht
        have hlen := hr.header_length (s := t') (by simp)
        obtain ⟨hne, hne'⟩ := hr.length_add_ne_zero
        obtain ⟨hself, hother⟩ := hr.header_merge (fun _ _ => rfl) hlen hfree
        have hforward := not_listIntact_combineForward hr rfl (fun _ _ => rfl) hlen hfree hne
        unfold combineBackward
        split_ifs with hlast
        · have hls : last (combineForward s.addr h).mem s.addr =
              (L.map Segment.addr).getLastD 0 := by
            rw [last_eq, hself]
            exact hr.last_eq_before
          rw [hls] at hlast ⊢
          rcases List.eq_nil_or_concat L with rfl | ⟨L, u, rfl⟩
          · exact absurd rfl hlast.1
          · rw [List.concat_eq_append] at *
            have hu : ((L ++ [u]).map Segment.addr).getLastD 0 = u.addr := by simp
            rw [hu]
            rw [List.append_assoc] at hr
            exact not_listIntact_combineForward hr (combineForward_sameHeap _ _).heapStart hother
              hself hs
              hne'
        · exact hforward
  · obtain ⟨u, hu, hfree⟩ := hn.resolve_left hR
    rw [hr.combineForward_eq fun t ht => by
      by_contra hne
      exact hR ⟨t, ht, by simpa using hne⟩]
    rcases List.eq_nil_or_concat L with rfl | ⟨L, u', rfl⟩
    · exact absurd hu (by simp)
    · rw [List.concat_eq_append] at *
      obtain rfl : u' = u := by simpa using hu
      have hlast : last h.mem s.addr = u'.addr := by
        rw [hr.last_eq_before]
        simp
      have hmem : u' ∈ L ++ [u'] ++ s :: R := by simp
      have hcond : last h.mem s.addr ≠ 0 ∧ HeapSegHeader.free h.mem (last h.mem s.addr) = true := by
        rw [hlast]
        exact ⟨hr.addr_ne_zero hmem, (hr.fields u' hmem).2.trans hfree⟩
      unfold combineBackward
      rw [if_pos hcond, hlast]
      rw [List.append_assoc] at hr
      exact not_listIntact_combineForward hr rfl (fun _ _ => rfl) (hr.header_length (by simp)) hs
        hr.length_add_ne_zero.1

/-- **`free` leaves the list intact exactly when both neighbours are in use.** -/
theorem listIntact_free_iff (hr : Represents h (L ++ s :: R))
    (hsep : NoFreeNeighbours (L ++ s :: R)) :
    ListIntact (free (s.addr + 32) h) ↔ NeighboursInUse h (s.addr + 32) := by
  refine ⟨fun hintact => ?_, fun hinUse => ?_⟩
  · have hseg : s.addr + 32 - 32 = s.addr := by bv_omega
    unfold free at hintact
    simp only [hseg] at hintact
    have hmerges := not_listIntact_merges (hr.setFree true) rfl
    refine hr.neighboursInUse (fun t ht => ?_) fun t ht => ?_
    · by_contra hne
      exact hmerges (Or.inr ⟨t, ht, by simpa using hne⟩) hintact
    · by_contra hne
      exact hmerges (Or.inl ⟨t, ht, by simpa using hne⟩) hintact
  · obtain ⟨hr', hL, hR⟩ := free_step hr hinUse
    exact hr'.listIntact (hsep.release hL hR)

end EtaOs
