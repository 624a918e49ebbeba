import EtaOs.Heap.Payloads

/-!
# What the calls leave alone

`malloc` and `free` write headers, and the extension of the heap writes pages behind its end.
Neither writes a payload that is in use, so a program that holds a block finds in it what it
has put there.  Headers start at multiples of 16.

That blocks are apart is a matter of addresses.  That the contents stay is what makes a block worth
having, and the layers above, where a block is an object with a value, rest on it.

* `extend_kept`, `scan_kept`, `malloc_kept`, `free_kept`: the payloads in use are not written.
* `AlignedHeaders`, `Allots.aligned`: headers stay aligned.
-/

namespace EtaOs

open ByteMemory HeapSegHeader LinkedList Tiling

variable {h h' : Heap} {segs segs' L R : List Segment} {s t : Segment} {r : BitVec 64} {p : Addr}

/-! ## Payloads -/

/-- The payload is the rest of the segment. -/
theorem Segment.sameOn_payload {m m' : Mem} (hsame : SameOn t.addr (32 + t.length.toNat) m m') :
    SameOn (t.addr + 32) t.length.toNat m m' := by
  refine hsame.mono ?_
  bv_omega

/-- A header is apart from its own payload. -/
theorem Segment.apart_payload (hpos : 0 < t.length.toNat) (hhi : t.hi < 2 ^ 64) :
    Apart t.addr 32 (t.addr + 32) t.length.toNat := by
  unfold Segment.hi at hhi
  constructor <;> bv_omega

namespace Represents

theorem hi_lt (hr : Represents h segs) (ht : t ∈ segs) : t.hi < 2 ^ 64 :=
  Nat.lt_of_le_of_lt (hr.bounds ht).2 h.heapEnd.isLt

/-- Bytes of a payload are apart from the header of every segment. -/
theorem apart_payload_header (hr : Represents h segs) (hs : s ∈ segs) (ht : t ∈ segs)
    (hpos : 0 < t.length.toNat) : Apart s.addr 32 (t.addr + 32) t.length.toNat := by
  have hhi := hr.hi_lt ht
  have hpay := t.apart_payload hpos hhi
  rcases hr.tiles.eq_or_apart hs ht with rfl | hor
  · exact hpay
  · unfold Segment.hi at hhi
    refine hr.apart_of_le hs ht hor s.within_header ⟨?_, ?_, hpos⟩ <;>
      (unfold Segment.lo Segment.hi at *; bv_omega)

/-- **Changing a flag** writes no payload. -/
theorem setFree_kept (hr : Represents h segs) (hs : s ∈ segs) (ht : t ∈ segs) (v : Bool) :
    SameOn (t.addr + 32) t.length.toNat h.mem (HeapSegHeader.setFree h.mem s.addr v) := by
  rcases Nat.eq_zero_or_pos t.length.toNat with h0 | hpos
  · rw [h0]
    exact fun x hx => absurd hx (Nat.not_lt_zero _)
  · exact sameOn_setFree (hr.apart_payload_header hs ht hpos) v

/-- **`split` writes no payload of another segment.** -/
theorem split_payload (hr : Represents h (L ++ s :: R)) (hr16 : ¬ r < 0x10)
    (hfits : r.toNat + 48 ≤ s.length.toNat) (hpos : ¬ (s.length - r - 32).slt 0x10)
    (ht : t ∈ L ++ R) : SameOn (t.addr + 32) t.length.toNat h.mem
      (EtaOs.HeapSegHeader.split s.addr r h).2.mem := by
  have htmem := mem_of_mem_rest (s := s) ht
  have hhi := hr.hi_lt htmem
  by_cases hkept : t ∈ L ++ R.tail
  · exact Segment.sameOn_payload (hr.split_kept hr16 hfits hpos hkept)
  · -- the segment behind the one that is split gets a new `last`
    have hhead : t ∈ R.head? := by
      cases R with
      | nil => exact absurd ht hkept
      | cons u R =>
          have hcases : t ∈ L ∨ t = u ∨ t ∈ R := by simpa using ht
          rcases hcases with htL | rfl | htR
          · exact absurd (List.mem_append_left _ htL) hkept
          · rfl
          · exact absurd (List.mem_append_right _ htR) hkept
    have hrest := Segment.sameOn_payload (hr.split_relinked hr16 hfits hpos hhead)
    rcases Nat.eq_zero_or_pos t.length.toNat with h0 | hlen
    · rw [h0]
      exact fun x hx => absurd hx (Nat.not_lt_zero _)
    · exact (sameOn_setLast (apart_lastField (t.apart_payload hlen hhi)) _).trans hrest

/-- **An extension writes no payload.** -/
theorem extend_kept (hr : Represents h (L ++ [s])) (hused : s.free = false) (hpos : 0 < r.toNat)
    (hfit : h.heapEnd.toNat + pagesUp r.toNat < 2 ^ 64) (haligned : h.heapEnd.toNat % 4096 = 0)
    (ht : t ∈ L ++ [s]) :
    SameOn (t.addr + 32) t.length.toNat h.mem (extendHeap r h).mem := by
  have hpage := hr.below_pageStart (s := s) (by simp) haligned
  obtain ⟨happend, -⟩ := hr.appended hpos hfit hpage
  have hmerge := Represents.combineBackward_eq (L := L ++ [s]) (R := [])
    (by rwa [List.append_assoc]) (by simpa using hused)
  have hge := page_le_pagesUp hpos
  have hcount := pageCount_eq (r := r) (by omega)
  rw [extendHeap_eq]
  show SameOn _ _ _ (combineBackward h.heapEnd (appendSegment r h)).mem
  rw [hmerge]
  unfold appendSegment linkedLast
  generalize (pageRoundUp r / 0x1000).toNat = n at hcount
  have hfit' : h.heapEnd.toNat + 4096 * n < 2 ^ 64 := by omega
  obtain ⟨-, hglast, -⟩ := growLoop_globals hfit'
  have hls : h.lastHeader = s.addr := by simpa using hr.lastHeader.symm
  have hbounds := hr.bounds ht
  rcases Nat.eq_zero_or_pos t.length.toNat with h0 | hlen
  · rw [h0]
    exact fun x hx => absurd hx (Nat.not_lt_zero _)
  have hold : Apart s.addr 32 (t.addr + 32) t.length.toNat :=
    hr.apart_payload_header (by simp) ht hlen
  have hnew : Apart h.heapEnd 32 (t.addr + 32) t.length.toNat := by
    constructor <;> bv_omega
  have hgrow : SameOn (t.addr + 32) t.length.toNat h.mem (growLoop n h).mem := by
    intro x hx
    rw [growLoop_eq]
    refine (mapPages_spec n h.heapEnd h hfit').1 x ?_
    unfold pageStart
    have hx' : x.toNat < h.heapEnd.toNat := by bv_omega
    omega
  rw [hglast, hls]
  refine hgrow.trans (SameOn.trans ?_ (sameOn_setLength hnew _))
  refine SameOn.trans ?_ (sameOn_setNext hnew _)
  refine SameOn.trans ?_ (sameOn_setNext hold _)
  refine SameOn.trans ?_ (sameOn_setLast (apart_lastField hnew) _)
  exact sameOn_setFree hnew _

end Represents

/-! ## The calls -/

/-- **The segment handed out** is the only one whose payload the loop writes to. -/
theorem scan_kept (hr : Represents h (L ++ s :: R)) (hs : s.Fits r) (hr16 : ¬ r < 0x10) {fuel : ℕ}
    {o : Option Addr} (hscan : scan (fuel + 1) r s.addr h = some (o, h')) (ht : t ∈ L ++ R) :
    SameOn (t.addr + 32) t.length.toNat h.mem h'.mem := by
  obtain ⟨hfree, hle⟩ := hs
  obtain ⟨hlen, hfr⟩ := hr.fields s (by simp)
  rw [scan, hfr, hlen, hfree] at hscan
  by_cases heq : s.length = r
  · have hnlt : ¬ r < s.length := by bv_omega
    rw [if_neg fun hc => hnlt hc.2, if_pos ⟨rfl, heq⟩] at hscan
    obtain ⟨-, rfl⟩ := Prod.mk.inj (Option.some.inj hscan)
    exact SameOn.refl _ _ _
  · have hlt : r < s.length := by bv_omega
    rw [if_pos ⟨rfl, hlt⟩] at hscan
    obtain ⟨-, rfl⟩ := Prod.mk.inj (Option.some.inj hscan)
    by_cases hpos : (s.length - r - 32).slt 0x10
    · rw [split_null (Or.inr (hlen ▸ hpos))]
      exact hr.setFree_kept (by simp) (mem_of_mem_rest ht) false
    · have hroom := room_of_not_slt hle hpos
      have hsplit := hr.split hr16 hroom hpos
      refine (hr.split_payload hr16 hroom hpos ht).trans ?_
      have htmem : t ∈ L ++ ⟨s.addr, r, s.free⟩ ::
          ⟨s.addr + r + 32, s.length - r - 32, s.free⟩ :: R := by
        rcases List.mem_append.mp ht with ht | ht <;> simp [ht]
      exact hsplit.setFree_kept (s := ⟨s.addr, r, s.free⟩) (by simp) htmem false

/-- **A request that fits** writes no payload in use. -/
theorem malloc_first_kept {size : BitVec 64} {fuel : ℕ} (hr : Represents h (L ++ s :: R))
    (hne : roundUp size ≠ 0) (hL : ∀ u ∈ L, ¬ u.Fits (roundUp size)) (hs : s.Fits (roundUp size))
    (hmalloc : malloc fuel size h = some (p, h')) (ht : t ∈ L ++ R) :
    SameOn (t.addr + 32) t.length.toNat h.mem h'.mem := by
  have hr16 := roundUp_not_lt hne
  obtain ⟨h₁, hscan, -⟩ := scan_first hr hL hs hr16 (show L.length < L.length + 2 by omega)
  have hstart : h.heapStart = behind (L ++ s :: R) := by
    cases L with
    | nil => exact hr.behind_eq.symm
    | cons u L => exact hr.behind_eq.symm
  have hwalk := scan_append (L := []) hr hL 2
  rw [hstart, show L.length + 2 = 2 + L.length by omega, hwalk] at hscan
  have hkept := scan_kept hr hs hr16 hscan ht
  -- `malloc` returns what the loop found
  have hfull : malloc (L.length + 2) size h = some (s.addr + 32, h₁) := by
    rw [malloc, if_neg hne, hstart, show L.length + 1 + 1 = 2 + L.length by omega, hwalk, hscan]
  obtain ⟨-, rfl⟩ := Prod.mk.inj (malloc_unique hmalloc hfull)
  exact hkept

/-- **`malloc` writes no payload in use**, whether it extends the heap or not. -/
theorem malloc_kept {size : BitVec 64} {fuel : ℕ} (hr : Represents h segs)
    (haligned : h.heapEnd.toNat % 4096 = 0) (hne : roundUp size ≠ 0)
    (hserved : Served h segs (roundUp size)) (hmalloc : malloc fuel size h = some (p, h'))
    (ht : t ∈ segs) (hused : t.free = false) :
    SameOn (t.addr + 32) t.length.toNat h.mem h'.mem := by
  have hnot : ∀ {u : Segment}, u.Fits (roundUp size) → t ≠ u := by
    rintro u ⟨hfree, -⟩ rfl
    rw [hused] at hfree
    exact absurd hfree (by decide)
  have hrest : ∀ {L R : List Segment} {u : Segment}, u.Fits (roundUp size) → t ∈ L ++ u :: R →
      t ∈ L ++ R := by
    intro L R u hu hmem
    simpa [hnot hu] using hmem
  by_cases hfit : ∃ u ∈ segs, u.Fits (roundUp size)
  · obtain ⟨L, u, R, rfl, hL, hu⟩ := exists_first_fit hfit
    exact malloc_first_kept hr hne hL hu hmalloc (hrest hu ht)
  · have hnone : ∀ u ∈ segs, ¬ u.Fits (roundUp size) := fun u hu hfits => hfit ⟨u, hu, hfits⟩
    obtain ⟨hg, hbelow⟩ := hserved.resolve_left hfit
    obtain ⟨L, u, rfl⟩ := hr.exists_last
    have hlast : h.lastHeader = u.addr := by simpa using hr.lastHeader.symm
    have hinUse : u.free = false := by
      rw [← (hr.fields u (by simp)).2, ← hlast]
      exact hg.inUse
    have hpos := roundUp_pos hne
    have hext : Represents (extendHeap (roundUp size) h)
        ((L ++ [u]) ++ grown h (roundUp size) :: []) := by
      rw [List.append_assoc]
      exact hr.extend hinUse hpos hg.space (hlast ▸ hbelow)
    -- the call behind the extension
    have hround := roundUp_roundUp size
    obtain ⟨h₁, hrec, -⟩ := malloc_first (roundUp size) _ hext (hround.symm ▸ hne)
      (hround.symm ▸ hnone) (hround.symm ▸ grown_fits hg) (Nat.lt_succ_self _)
    have hcall : malloc ((L ++ [u]).length + 2) size h = some (h.heapEnd + 32, h₁) := by
      have hlen : L.length < (L ++ [u]).length + 1 + 1 := by simp; omega
      rw [malloc, if_neg hne, scan_none hr hnone hlen]
      exact hrec
    obtain ⟨-, rfl⟩ := Prod.mk.inj (malloc_unique hmalloc hcall)
    refine (hr.extend_kept hinUse hpos hg.space haligned ht).trans ?_
    exact malloc_first_kept hext (hround.symm ▸ hne) (hround.symm ▸ hnone)
      (hround.symm ▸ grown_fits hg) hrec (by rwa [List.append_nil])

/-- **`free` between neighbours in use** writes no payload. -/
theorem free_kept (hr : Represents h (L ++ s :: R)) (hfree : NeighboursInUse h (s.addr + 32))
    (ht : t ∈ L ++ s :: R) :
    SameOn (t.addr + 32) t.length.toNat h.mem (free (s.addr + 32) h).mem := by
  obtain ⟨-, hL, hR⟩ := free_step hr hfree
  have hset := hr.setFree true
  have hseg : s.addr + 32 - 32 = s.addr := by bv_omega
  have hmem : (free (s.addr + 32) h).mem = HeapSegHeader.setFree h.mem s.addr true := by
    unfold free
    simp only [hseg]
    rw [hset.combineForward_eq hR, hset.combineBackward_eq hL]
  rw [hmem]
  exact hr.setFree_kept (by simp) ht true

/-! ## Alignment -/

/-- Every header starts at a multiple of 16. -/
def AlignedHeaders (segs : List Segment) : Prop := ∀ s ∈ segs, s.addr.toNat % 16 = 0

/-- **What a request leaves is aligned**, when its size is a multiple of 16. -/
theorem Allots.aligned (ha : Allots r segs p segs') (hr : Represents h segs)
    (hmod : r.toNat % 16 = 0) (haligned : AlignedHeaders segs) : AlignedHeaders segs' := by
  obtain ⟨L, R, s, -, hfits⟩ := ha
  have hs : s ∈ L ++ s :: R := by simp
  have hbound := hr.hi_lt hs
  have hslot := haligned s hs
  have hle : r.toNat ≤ s.length.toNat := hfits.2
  unfold Segment.hi at hbound
  have hpieces : ∀ u ∈ allot r s, u.addr.toNat % 16 = 0 := by
    intro u hu
    unfold allot at hu
    split_ifs at hu with heq hsmall
    · rw [List.mem_singleton.mp hu]
      exact hslot
    · rw [List.mem_singleton.mp hu]
      exact hslot
    · have hroom := room_of_not_slt hfits.2 hsmall
      have hcases : u = ⟨s.addr, r, false⟩ ∨ u = ⟨s.addr + r + 32, s.length - r - 32, true⟩ := by
        simpa using hu
      rcases hcases with rfl | rfl
      · exact hslot
      · show (s.addr + r + 32).toNat % 16 = 0
        bv_omega
  intro u hu
  rw [List.append_assoc] at hu
  rcases List.mem_append.mp hu with hu | hu
  · exact haligned u (List.mem_append_left _ hu)
  rcases List.mem_append.mp hu with hu | hu
  · exact hpieces u hu
  · exact haligned u (by simp [hu])

/-- The list starts where it started. -/
theorem Allots.heapStart (ha : Allots r segs p segs') (hr : Represents h segs)
    (hr' : Represents h' segs') : h'.heapStart = h.heapStart := by
  obtain ⟨L, R, s, -, -⟩ := ha
  cases L with
  | nil =>
      obtain ⟨t, rest, hallot, haddr⟩ := allot_head r s
      rw [hallot] at hr'
      exact hr'.head_addr.symm.trans (haddr.trans hr.head_addr)
  | cons u L => exact hr'.head_addr.symm.trans hr.head_addr

/-- A size that is rounded up is a multiple of 16. -/
theorem roundUp_mod {size : BitVec 64} (hne : roundUp size ≠ 0) :
    (roundUp size).toNat % 16 = 0 := by
  rw [roundUp_toNat size hne]
  exact Nat.mul_mod_left _ 16

end EtaOs
