import EtaOs.Heap.HandsOut
import EtaOs.Heap.LoggedRuns

/-!
# Requests that extend the heap

A request that nothing fits extends the heap by whole pages.  The pages are merged with a free
last segment, which then fits.  Behind a segment in use they are a segment of their own, which
is 32 bytes shorter than the pages, and when it is too short a second extension is merged
with it.

These are the only calls in which `malloc` goes through the list more than once.  What it meets in
the later rounds is known, as an extension changes the end of the list only, and that is how the
number of rounds is bounded.

* `HeapEvent.Exact`, `HeapEvent.Inside`, `extensions`: what is said of the events.
* `FindsFit`, `NeedsExtension`: the requests.
* `Extendable`: the heaps that can grow for a request.
* `Represents.merged`: the heap after an extension that is merged.
* `Grants`: the pointer lies in the heap, and every size is exact.
* `mallocLogged_merged`, `mallocLogged_appended`, `mallocLogged_twice`: the three cases, which
  `mallocLogged_extended` puts together.
-/

namespace EtaOs

open ByteMemory HeapSegHeader LinkedList Tiling Emitting Prog

/-! ## What is said of the events -/

namespace HeapEvent

/-- A size is what it should be. -/
def Exact : HeapEvent → Prop
  | .size value exact => value = exact
  | _ => True

/-- A header that is accessed lies in the heap. -/
def Inside : HeapEvent → Prop
  | .field seg heapStart heapEnd =>
      heapStart.toNat ≤ seg.toNat ∧ seg.toNat + 32 ≤ heapEnd.toNat
  | _ => True

/-- A call of `extend_heap`. -/
def isExtend : HeapEvent → Bool
  | .extend _ => true
  | _ => false

end HeapEvent

/-- The number of calls of `extend_heap`. -/
def extensions (es : List HeapEvent) : ℕ := es.countP HeapEvent.isExtend

theorem acceptsExact_exact : AcceptsExact HeapEvent.Exact := fun _ => rfl

theorem acceptsExact_inside : AcceptsExact HeapEvent.Inside := fun _ => trivial

theorem acceptsExact_not_isExtend : AcceptsExact fun e => e.isExtend = false := fun _ => rfl

theorem extensions_append (es es' : List HeapEvent) :
    extensions (es ++ es') = extensions es + extensions es' := List.countP_append

theorem extensions_eq_zero {es : List HeapEvent} (hes : ∀ e ∈ es, e.isExtend = false) :
    extensions es = 0 :=
  List.countP_eq_zero.mpr fun e he => by simp [hes e he]

theorem extensions_extend (r : BitVec 64) (es : List HeapEvent) :
    extensions (.extend r :: es) = extensions es + 1 := List.countP_cons_of_pos rfl

variable {h g : Heap} {L R segs : List Segment} {s z : Segment} {r size : BitVec 64}

/-- The size of the remainder is exact when it is not negative as a signed number by mistake. -/
theorem exact_remainderEvent {len : BitVec 64} (hle : r ≤ len) :
    (remainderEvent r len).Exact ↔ len.toNat < r.toNat + 32 + 2 ^ 63 := by
  show (len - r - 32).toInt = len.toNat - r.toNat - 32 ↔ _
  rw [toInt_remainder hle]
  split_ifs <;> omega

/-- The headers of the list lie in the heap. -/
theorem Represents.inside (hr : Represents h segs) (hs : s ∈ segs) :
    (h.access s.addr).Inside := by
  have hbound := hr.bounds hs
  exact ⟨hbound.1, by omega⟩

/-! ## The heaps that can grow -/

/-- The segment that `malloc` hands out without extending the heap. -/
def FindsFit (segs : List Segment) (r : BitVec 64) (s : Segment) : Prop :=
  r ≠ 0 ∧ ∃ L R, segs = L ++ s :: R ∧ (∀ t ∈ L, ¬ t.Fits r) ∧ s.Fits r

/-- Nothing fits, so that `malloc` extends the heap. -/
def NeedsExtension (segs : List Segment) (r : BitVec 64) : Prop :=
  r ≠ 0 ∧ ∀ t ∈ segs, ¬ t.Fits r

/-- A segment that is too short does not help. -/
theorem NeedsExtension.again {u : Segment} (hneeds : NeedsExtension segs (roundUp size))
    (hu : u.length.toNat < (roundUp size).toNat) :
    NeedsExtension (segs ++ [u]) (roundUp (roundUp size)) := by
  rw [roundUp_roundUp]
  refine ⟨hneeds.1, fun t ht hfits => ?_⟩
  rcases List.mem_append.mp ht with ht | ht
  · exact hneeds.2 t ht hfits
  · obtain rfl := List.mem_singleton.mp ht
    have hle : (roundUp size).toNat ≤ t.length.toNat := hfits.2
    omega

/-- A request is for nothing, has a first fit, or extends the heap. -/
theorem request_cases (segs : List Segment) (r : BitVec 64) :
    r = 0 ∨ (∃ s, FindsFit segs r s) ∨ NeedsExtension segs r := by
  by_cases h0 : r = 0
  · exact Or.inl h0
  · by_cases hfit : ∃ t ∈ segs, t.Fits r
    · obtain ⟨L, s, R, heq, hL, hs⟩ := exists_first_fit hfit
      exact Or.inr (Or.inl ⟨s, h0, L, R, heq, hL, hs⟩)
    · exact Or.inr (Or.inr ⟨h0, fun t ht hfits => hfit ⟨t, ht, hfits⟩⟩)

/-- **The heap can grow for a request** behind its last segment `z`: it ends with a page, and
`heap_end` does not wrap, in the second extension either, which is made when `z` is in use and
the first one adds too short a segment. -/
structure Extendable (h : Heap) (z : Segment) (r : BitVec 64) : Prop where
  aligned : h.heapEnd.toNat % 4096 = 0
  first : h.heapEnd.toNat + (pageRoundUp r).toNat < 2 ^ 64
  second : z.free = false → (pageRoundUp r).toNat < r.toNat + 32 →
    h.heapEnd.toNat + 2 * (pageRoundUp r).toNat < 2 ^ 64

/-- The bounds of the heap after an extension. -/
theorem appendSegment_bounds (hfit : h.heapEnd.toNat + pagesUp r.toNat < 2 ^ 64) :
    (appendSegment r h).heapStart = h.heapStart ∧
      (appendSegment r h).heapEnd.toNat = h.heapEnd.toNat + pagesUp r.toNat := by
  have hcount := pageCount_eq (r := r) (by omega)
  obtain ⟨hstart, -, hend⟩ := growLoop_globals (h := h) (n := (pageRoundUp r / 0x1000).toNat)
    (by omega)
  exact ⟨hstart, by rw [← hcount]; exact hend⟩

theorem extendHeap_bounds (hfit : h.heapEnd.toNat + pagesUp r.toNat < 2 ^ 64) :
    (extendHeap r h).heapStart = h.heapStart ∧
      (extendHeap r h).heapEnd.toNat = h.heapEnd.toNat + pagesUp r.toNat := by
  obtain ⟨hstart, hend⟩ := appendSegment_bounds hfit
  have hsame : SameHeap (appendSegment r h) (extendHeap r h) :=
    combineBackward_sameHeap h.heapEnd (appendSegment r h)
  exact ⟨hsame.heapStart.trans hstart, by rw [hsame.heapEnd, hend]⟩

/-- **An extension is merged** with a free last segment, which grows by the pages. -/
theorem Represents.merged (hr : Represents h (L ++ [z])) (hz : z.free = true) (hpos : 0 < r.toNat)
    (haligned : h.heapEnd.toNat % 4096 = 0)
    (hfit : h.heapEnd.toNat + pagesUp r.toNat < 2 ^ 64) :
    Walk (extendHeap r h).mem L z.addr ∧
      HeapSegHeader.free (extendHeap r h).mem z.addr = true ∧
      (length (extendHeap r h).mem z.addr).toNat = z.length.toNat + pagesUp r.toNat ∧
      next (extendHeap r h).mem z.addr = h.heapEnd := by
  obtain ⟨happend, -⟩ := hr.appended hpos hfit (hr.below_pageStart (by simp) haligned)
  have hge := page_le_pagesUp hpos
  have hbound := (hr.bounds (s := z) (by simp)).2
  generalize hu : (⟨h.heapEnd, BitVec.ofNat 64 (pagesUp r.toNat - 32), true⟩ : Segment) = u
    at happend
  have huaddr : h.heapEnd = u.addr := by rw [← hu]
  have hulen : u.length = BitVec.ofNat 64 (pagesUp r.toNat - 32) := by rw [← hu]
  have hufree : u.free = true := by rw [← hu]
  have hlast : last (appendSegment r h).mem h.heapEnd = z.addr := by
    have happend' : Represents (appendSegment r h) ((L ++ [z]) ++ u :: []) := by
      rwa [List.append_assoc]
    rw [huaddr, happend'.last_eq_before]
    simp
  obtain ⟨-, hzfree⟩ := happend.fields z (by simp)
  have hmerge : extendHeap r h = combineForward z.addr (appendSegment r h) := by
    show combineBackward h.heapEnd (appendSegment r h) = _
    unfold combineBackward
    rw [hlast, hzfree, if_pos ⟨happend.addr_ne_zero (by simp), hz⟩]
  obtain ⟨hself, hother⟩ := happend.header_merge (g := appendSegment r h) (fun _ _ => rfl)
    (happend.header_length (s := u) (by simp)) hufree
  rw [hmerge]
  refine ⟨happend.walk.congr hother, ?_, ?_, ?_⟩
  · rw [free_eq, hself]
    exact hzfree.trans hz
  · rw [length_eq, hself, hulen]
    show (z.length + BitVec.ofNat 64 (pagesUp r.toNat - 32) + 32).toNat = _
    bv_omega
  · rw [next_eq, hself, huaddr]
    exact happend.next_eq_behind

/-! ## The three cases -/

/-- **A request that is served**: the pointer has the bytes of the request in the heap, and
every size is exact. -/
structure Grants (h' : Heap) (p : Addr) (size : BitVec 64) (es : List HeapEvent) : Prop where
  within : h'.heapStart.toNat ≤ p.toNat ∧ p.toNat + size.toNat ≤ h'.heapEnd.toNat
  exact : ∀ e ∈ es, e.Exact

/-- The way to the first extension: it accesses headers in the heap, and its sizes are exact. -/
theorem mallocLogged_extends {fuel : ℕ} (hr : Represents h (L ++ [z]))
    (hneeds : NeedsExtension (L ++ [z]) (roundUp size)) (haligned : h.heapEnd.toNat % 4096 = 0)
    (hfit : h.heapEnd.toNat + pagesUp (roundUp size).toNat < 2 ^ 64) (hfuel : L.length ≤ fuel) :
    ∃ es, (mallocLogged (fuel + 1) size).run h =
        ⟨((mallocLogged fuel (roundUp size)).run (extendHeap (roundUp size) h)).value,
          ((mallocLogged fuel (roundUp size)).run (extendHeap (roundUp size) h)).state,
          es ++ ((mallocLogged fuel (roundUp size)).run (extendHeap (roundUp size) h)).events⟩ ∧
      (∀ e ∈ es, e.Exact) ∧ (∀ e ∈ es, e.Inside) ∧ extensions es = 1 := by
  obtain ⟨hne, hnone⟩ := hneeds
  have hpos := roundUp_pos hne
  have hge := page_le_pagesUp hpos
  obtain ⟨es₁, hes₁, hrun⟩ := mallocLogged_grows hr hne hnone hfuel
  obtain ⟨es₂, hext, hes₂⟩ := extendHeapLogged_run hr hpos haligned hfit
  obtain ⟨hstart, hend⟩ := appendSegment_bounds hfit
  have hzbound := hr.bounds (s := z) (by simp)
  have hlo := hr.bounds (s := z) (by simp)
  rw [hext, ← List.append_assoc] at hrun
  refine ⟨es₁ ++ .extend (roundUp size) :: es₂, hrun, ?_, ?_, ?_⟩
  · rw [List.forall_mem_append, List.forall_mem_cons]
    exact ⟨(hes₁ _ acceptsExact_exact).mpr fun _ _ => trivial, trivial,
      (hes₂ _ acceptsExact_exact).mpr ⟨trivial, trivial⟩⟩
  · rw [List.forall_mem_append, List.forall_mem_cons]
    refine ⟨(hes₁ _ acceptsExact_inside).mpr fun t ht => hr.inside ht, trivial,
      (hes₂ _ acceptsExact_inside).mpr ⟨⟨?_, ?_⟩, ⟨?_, ?_⟩⟩⟩ <;>
      simp only [hstart, hend] <;>
      omega
  · rw [extensions_append, extensions_extend,
      extensions_eq_zero ((hes₁ _ acceptsExact_not_isExtend).mpr fun _ _ => rfl),
      extensions_eq_zero ((hes₂ _ acceptsExact_not_isExtend).mpr ⟨rfl, rfl⟩)]

/-- **The extension is merged** with a free last segment. -/
theorem mallocLogged_merged (hr : Represents h (L ++ [z]))
    (hneeds : NeedsExtension (L ++ [z]) (roundUp size)) (hz : z.free = true)
    (haligned : h.heapEnd.toNat % 4096 = 0)
    (hfit : h.heapEnd.toNat + pagesUp (roundUp size).toNat < 2 ^ 64) :
    ∃ p h' es, (mallocLogged (L.length + 2) size).run h = ⟨some p, h', es⟩ ∧
      Grants h' p (roundUp size) es ∧ extensions es = 1 ∧ ∀ e ∈ es, e.Inside := by
  have hne := hneeds.1
  have hpos := roundUp_pos hne
  obtain ⟨es₁, hrun, hexact₁, hinside₁, hcount₁⟩ :=
    mallocLogged_extends hr hneeds haligned hfit (Nat.le_succ L.length)
  obtain ⟨hwalk, hfree, hlen, hnext⟩ := hr.merged hz hpos haligned hfit
  obtain ⟨hstart, hend⟩ := extendHeap_bounds hfit
  have hround := roundUp_roundUp size
  have hshort : ¬ roundUp size ≤ z.length := fun hle => hneeds.2 z (by simp) ⟨hz, hle⟩
  obtain ⟨hzlo, hzhi⟩ := hr.bounds (s := z) (by simp)
  generalize roundUp size = r at *
  have hshort' : z.length.toNat < r.toNat := Nat.not_le.mp hshort
  obtain ⟨hge, hup, hpages⟩ := pagesUp_spec r.toNat
  generalize pagesUp r.toNat = n at *
  have hlen' : r ≤ length (extendHeap r h).mem z.addr := by
    show r.toNat ≤ _
    omega
  have hne' : roundUp r ≠ 0 := hround.symm ▸ hne
  obtain ⟨g, es₂, hserve, hstart', hend', hes₂⟩ := mallocLogged_fits hne'
    (hstart.trans hr.firstOf_eq.symm) hwalk
    (hround.symm ▸ fun t ht => hneeds.2 t (List.mem_append_left _ ht)) hfree
    (hround.symm ▸ hlen') (Nat.lt_succ_self L.length)
  rw [hround, hnext] at hes₂
  rw [hserve] at hrun
  have hz32 : (z.addr + 32).toNat = z.addr.toNat + 32 := by
    have hE := h.heapEnd.isLt
    bv_omega
  refine ⟨_, _, _, hrun, ⟨⟨?_, ?_⟩, ?_⟩, ?_, ?_⟩
  · rw [hstart', hstart, hz32]
    omega
  · rw [hend', hend, hz32]
    omega
  · rw [List.forall_mem_append]
    refine ⟨hexact₁, (hes₂ _ acceptsExact_exact).mpr ⟨fun _ _ => trivial, trivial,
      fun _ => ⟨trivial, trivial⟩, fun _ => (exact_remainderEvent hlen').mpr ?_⟩⟩
    omega
  · rw [extensions_append, hcount₁, extensions_eq_zero ((hes₂ _ acceptsExact_not_isExtend).mpr
      ⟨fun _ _ => rfl, rfl, fun _ => ⟨rfl, rfl⟩, fun _ => rfl⟩)]
  · have hin : ∀ x : Addr, h.heapStart.toNat ≤ x.toNat → x.toNat + 32 ≤ h.heapEnd.toNat + n →
        ((extendHeap r h).access x).Inside := by
      intro x hlo hhi
      rw [← hend] at hhi
      rw [← hstart] at hlo
      exact ⟨hlo, hhi⟩
    rw [List.forall_mem_append]
    refine ⟨hinside₁, (hes₂ _ acceptsExact_inside).mpr ⟨fun t ht => ?_, ?_, fun hsplits => ?_,
      fun _ => trivial⟩⟩
    · have hbound := hr.bounds (s := t) (List.mem_append_left _ ht)
      exact hin t.addr hbound.1 (by omega)
    · exact hin z.addr hzlo (by omega)
    · have hlong := hsplits.1
      have hsplit : (z.addr + r + 32).toNat = z.addr.toNat + r.toNat + 32 := by bv_omega
      exact ⟨hin _ (by omega) (by omega), hin _ (by omega) (by omega)⟩

/-- The segment that an extension adds behind a last segment in use. -/
theorem Represents.grown_last (hr : Represents h (L ++ [z])) (hz : z.free = false)
    (hpos : 0 < r.toNat) (haligned : h.heapEnd.toNat % 4096 = 0)
    (hfit : h.heapEnd.toNat + pagesUp r.toNat < 2 ^ 64) :
    ∃ u, u.addr = h.heapEnd ∧ u.length.toNat + 32 = pagesUp r.toNat ∧ u.free = true ∧
      Represents (extendHeap r h) ((L ++ [z]) ++ [u]) := by
  have hge := page_le_pagesUp hpos
  refine ⟨⟨h.heapEnd, BitVec.ofNat 64 (pagesUp r.toNat - 32), true⟩, rfl, ?_, rfl, ?_⟩
  · show (BitVec.ofNat 64 (pagesUp r.toNat - 32)).toNat + 32 = pagesUp r.toNat
    rw [BitVec.toNat_ofNat, Nat.mod_eq_of_lt (by omega)]
    omega
  · rw [List.append_assoc]
    exact hr.extend hz hpos hfit (hr.below_pageStart (by simp) haligned)

/-- **The extension is large enough** behind a last segment in use.  Its segment is the last
one, and when it is split there is no header behind it. -/
theorem mallocLogged_appended (hr : Represents h (L ++ [z]))
    (hneeds : NeedsExtension (L ++ [z]) (roundUp size)) (hz : z.free = false)
    (haligned : h.heapEnd.toNat % 4096 = 0)
    (hfit : h.heapEnd.toNat + pagesUp (roundUp size).toNat < 2 ^ 64)
    (hroom : (roundUp size).toNat + 32 ≤ pagesUp (roundUp size).toNat) :
    ∃ p h' es, (mallocLogged (L.length + 3) size).run h = ⟨some p, h', es⟩ ∧
      Grants h' p (roundUp size) es ∧ extensions es = 1 ∧
      ((∀ e ∈ es, e.Inside) ↔ pagesUp (roundUp size).toNat < (roundUp size).toNat + 80) := by
  have hne := hneeds.1
  have hpos := roundUp_pos hne
  obtain ⟨es₁, hrun, hexact₁, hinside₁, hcount₁⟩ :=
    mallocLogged_extends hr hneeds haligned hfit (show L.length ≤ L.length + 2 by omega)
  obtain ⟨u, -, hulen, hufree, hr'⟩ := hr.grown_last hz hpos haligned hfit
  have hround := roundUp_roundUp size
  have hnext : next (extendHeap (roundUp size) h).mem u.addr = 0 := hr'.next_eq_behind
  obtain ⟨hlen', hfree'⟩ := hr'.fields u (by simp)
  have hinside := fun {t : Segment} => hr'.inside (s := t)
  have hlow := hr'.low
  obtain ⟨hulo, huhi⟩ := hr'.bounds (s := u) (by simp)
  generalize roundUp size = r at *
  obtain ⟨-, hup, -⟩ := pagesUp_spec r.toNat
  generalize pagesUp r.toNat = n at *
  have hfits : r ≤ u.length := by
    show r.toNat ≤ _
    omega
  have hne' : roundUp r ≠ 0 := hround.symm ▸ hne
  obtain ⟨g, es₂, hserve, hstart', hend', hes₂⟩ := mallocLogged_fits hne' hr'.firstOf_eq.symm
    hr'.walk (hround.symm ▸ hneeds.2) (hfree'.trans hufree) (by rw [hround, hlen']; exact hfits)
    (show (L ++ [z]).length < L.length + 2 by simp)
  rw [hround, hnext, hlen'] at hes₂
  rw [hserve] at hrun
  have hu32 : (u.addr + 32).toNat = u.addr.toNat + 32 := by
    have hE := (extendHeap r h).heapEnd.isLt
    bv_omega
  refine ⟨_, _, _, hrun, ⟨⟨?_, ?_⟩, ?_⟩, ?_, ?_⟩
  · rw [hstart', hu32]
    omega
  · rw [hend', hu32]
    omega
  · rw [List.forall_mem_append]
    refine ⟨hexact₁, (hes₂ _ acceptsExact_exact).mpr ⟨fun _ _ => trivial, trivial,
      fun _ => ⟨trivial, trivial⟩, fun _ => (exact_remainderEvent hfits).mpr (by omega)⟩⟩
  · rw [extensions_append, hcount₁, extensions_eq_zero ((hes₂ _ acceptsExact_not_isExtend).mpr
      ⟨fun _ _ => rfl, rfl, fun _ => ⟨rfl, rfl⟩, fun _ => rfl⟩)]
  · rw [List.forall_mem_append, hes₂ _ acceptsExact_inside]
    constructor
    · rintro ⟨-, -, -, hsplits, -⟩
      by_contra hlong
      -- the header behind the last segment is the null one
      obtain ⟨⟨hnull, -⟩, -⟩ := hsplits ⟨by omega, by omega⟩
      have hnull' : (extendHeap r h).heapStart.toNat ≤ 0 := hnull
      omega
    · intro hshort
      refine ⟨hinside₁, fun t ht => hinside (List.mem_append_left _ ht), hinside (by simp),
        fun hsplits => ?_, fun _ => trivial⟩
      have hlong := hsplits.1
      omega

/-- **The extension is too short** behind a last segment in use, and a second one is merged
with it. -/
theorem mallocLogged_twice (hr : Represents h (L ++ [z]))
    (hneeds : NeedsExtension (L ++ [z]) (roundUp size)) (hz : z.free = false)
    (haligned : h.heapEnd.toNat % 4096 = 0)
    (hfit : h.heapEnd.toNat + 2 * pagesUp (roundUp size).toNat < 2 ^ 64)
    (hroom : pagesUp (roundUp size).toNat < (roundUp size).toNat + 32) :
    ∃ p h' es, (mallocLogged (L.length + 4) size).run h = ⟨some p, h', es⟩ ∧
      Grants h' p (roundUp size) es ∧ extensions es = 2 ∧ ∀ e ∈ es, e.Inside := by
  have hpos := roundUp_pos hneeds.1
  have hround := roundUp_roundUp size
  obtain ⟨es₁, hrun, hexact₁, hinside₁, hcount₁⟩ :=
    mallocLogged_extends hr hneeds haligned (by omega) (show L.length ≤ L.length + 3 by omega)
  obtain ⟨u, -, hulen, hufree, hr'⟩ := hr.grown_last hz hpos haligned (by omega)
  obtain ⟨-, hend⟩ := extendHeap_bounds (h := h) (r := roundUp size) (by omega)
  have hneeds' := hneeds.again (u := u) (by omega)
  have haligned' : (extendHeap (roundUp size) h).heapEnd.toNat % 4096 = 0 := by
    obtain ⟨-, -, hpages⟩ := pagesUp_spec (roundUp size).toNat
    rw [hend]
    omega
  obtain ⟨p, h', es₂, hserve, hgrants, hcount₂, hinside₂⟩ :=
    mallocLogged_merged hr' hneeds' hufree haligned' (by rw [hround, hend]; omega)
  have hfuel : (L ++ [z]).length + 2 = L.length + 3 := by simp
  rw [hround] at hgrants
  rw [hfuel] at hserve
  rw [hserve] at hrun
  refine ⟨_, _, _, hrun, ⟨hgrants.within, ?_⟩, ?_, ?_⟩
  · rw [List.forall_mem_append]
    exact ⟨hexact₁, hgrants.exact⟩
  · rw [extensions_append, hcount₁, hcount₂]
  · rw [List.forall_mem_append]
    exact ⟨hinside₁, hinside₂⟩

/-- **A request that extends the heap is served** after at most two extensions, and the accesses
stay in the heap unless the new segment is the last one and is split. -/
theorem mallocLogged_extended (hr : Represents h (L ++ [z]))
    (hneeds : NeedsExtension (L ++ [z]) (roundUp size)) (hgrow : Extendable h z (roundUp size))
    (hsize : (roundUp size).toNat ≤ 2 ^ 64 - 4096) :
    ∃ fuel p h' es, (mallocLogged fuel size).run h = ⟨some p, h', es⟩ ∧
      Grants h' p (roundUp size) es ∧ extensions es ≤ 2 ∧
      ((∀ e ∈ es, e.Inside) ↔
        z.free = true ∨ pagesUp (roundUp size).toNat < (roundUp size).toNat + 80) := by
  have hpages := pageRoundUp_toNat (pagesUp_lt hsize)
  have hfirst := hgrow.first
  have hsecond := hgrow.second
  rw [hpages] at hfirst hsecond
  cases hz : z.free with
  | true =>
      obtain ⟨p, h', es, hrun, hgrants, hcount, hinside⟩ :=
        mallocLogged_merged hr hneeds hz hgrow.aligned hfirst
      exact ⟨_, p, h', es, hrun, hgrants, by omega, iff_of_true hinside (Or.inl rfl)⟩
  | false =>
      by_cases hroom : (roundUp size).toNat + 32 ≤ pagesUp (roundUp size).toNat
      · obtain ⟨p, h', es, hrun, hgrants, hcount, hinside⟩ :=
          mallocLogged_appended hr hneeds hz hgrow.aligned hfirst hroom
        refine ⟨_, p, h', es, hrun, hgrants, by omega, hinside.trans ?_⟩
        exact (or_iff_right Bool.false_ne_true).symm
      · obtain ⟨p, h', es, hrun, hgrants, hcount, hinside⟩ := mallocLogged_twice hr hneeds hz
          hgrow.aligned (hsecond hz (by omega)) (by omega)
        exact ⟨_, p, h', es, hrun, hgrants, by omega, iff_of_true hinside (Or.inr (by omega))⟩

end EtaOs
