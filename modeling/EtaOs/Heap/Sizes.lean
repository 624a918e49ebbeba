import EtaOs.Heap.Growth

/-!
# The sizes that the heap computes

`malloc` and `extend_heap` round sizes up in 64 bits without a check, and `split` keeps a
length in an `int64_t`.  A size just below `2 ^ 64` is rounded to zero by one of them, and a
remainder from `2 ^ 63` bytes on is taken for a negative one.  For all other requests the sizes
are exact and what `malloc` returns lies in the heap.

Exactness is asked of every size on the way, not of the result only, as a wrapped size can still
lead to a pointer that looks right.

* `SizesExact`: the property of a heap and a request.
* `sizesExact_iff`: the requests that have it.
* `not_sizesExact_page`: a request that `extend_heap` rounds to zero.
-/

namespace EtaOs

open ByteMemory HeapSegHeader LinkedList Tiling Emitting Prog

/-- **Size arithmetic does not lie.**  What `malloc` returns is null or has the bytes of the
request in the heap, and every size on the way is exact in the type it is kept in. -/
def SizesExact (h : Heap) (size : BitVec 64) : Prop :=
  (∀ fuel p h', malloc fuel size h = some (p, h') →
    p = 0 ∨ h'.heapStart.toNat ≤ p.toNat ∧ p.toNat + size.toNat ≤ h'.heapEnd.toNat) ∧
  ∀ fuel, ∀ e ∈ ((mallocLogged fuel size).run h).events, e.Exact

variable {h : Heap} {L : List Segment} {z : Segment} {unit size : BitVec 64}

/-! ## Rounding -/

theorem roundUp_zero_iff : roundUp size = 0 ↔ size = 0 ∨ 2 ^ 64 - 16 < size.toNat := by
  have hlt := size.isLt
  have hmod : (size % 0x10).toNat = size.toNat % 16 := BitVec.toNat_umod
  constructor
  · intro h0
    unfold roundUp at h0
    split_ifs at h0 with hpos
    · have hpos' : 0 < size.toNat % 16 := by
        rw [← hmod]
        exact hpos
      have hval := congrArg BitVec.toNat h0
      have hunit : (0x10 : BitVec 64).toNat = 16 := rfl
      have hzero : (0 : BitVec 64).toNat = 0 := rfl
      rw [BitVec.toNat_add, BitVec.toNat_sub, hmod, hunit, hzero] at hval
      omega
    · exact Or.inl h0
  · rintro (rfl | hbig)
    · rfl
    · by_contra hne
      have hval := roundUp_toNat size hne
      have hround := (roundUp size).isLt
      omega

/-- A size that wraps when it is rounded is not exact. -/
theorem not_exact_roundLogged (hpos : 0 < size % unit)
    (hwrap : 2 ^ 64 ≤ size.toNat - (size % unit).toNat + unit.toNat) (h : Heap) :
    ¬ ∀ e ∈ ((roundLogged unit size).run h).events, e.Exact := by
  intro hall
  unfold roundLogged at hall
  rw [if_pos hpos] at hall
  have hexact : ((size - size % unit + unit).toNat : ℤ) =
      size.toNat - (size % unit).toNat + unit.toNat := hall _ List.mem_cons_self
  have hlt := (size - size % unit + unit).isLt
  omega

/-- The rounding is part of an extension. -/
theorem roundLogged_subset (r : BitVec 64) (h : Heap) :
    ((roundLogged 0x1000 r).run h).events ⊆ ((extendHeapLogged r).run h).events := by
  intro e he
  unfold extendHeapLogged
  simp only [run_bind]
  exact List.mem_append_right _ (List.mem_append_left _ he)

/-! ## The requests -/

/-- The events of every run are exact when those of a run with a value are. -/
theorem SizesExact.of_run {fuel : ℕ} {p : Addr} {h' : Heap} {es : List HeapEvent}
    (hrun : (mallocLogged fuel size).run h = ⟨some p, h', es⟩)
    (hp : p = 0 ∨ h'.heapStart.toNat ≤ p.toNat ∧ p.toNat + size.toNat ≤ h'.heapEnd.toNat)
    (hes : ∀ e ∈ es, e.Exact) : SizesExact h size := by
  refine ⟨fun fuel' q g hmalloc => ?_, fun fuel' e he => hes e (mallocLogged_subset hrun fuel' he)⟩
  obtain ⟨rfl, rfl⟩ := Prod.mk.inj (malloc_unique hmalloc (malloc_of_logged hrun))
  exact hp

/-- A size that `malloc` rounds to zero. -/
theorem SizesExact.le_of_exact (hexact : SizesExact h size) : size.toNat ≤ 2 ^ 64 - 16 := by
  by_contra hbig
  have hlt := size.isLt
  have hmod : (size % 0x10).toNat = size.toNat % 16 := BitVec.toNat_umod
  have hpos : 0 < size % 0x10 := by
    show 0 < (size % 0x10).toNat
    omega
  have hunit : (0x10 : BitVec 64).toNat = 16 := rfl
  refine not_exact_roundLogged hpos (by omega) h fun e he => hexact.2 1 e ?_
  rw [mallocLogged_zero (roundUp_zero_iff.mpr (Or.inr (by omega))) 0 h]
  exact he

/-- A size that `extend_heap` rounds to zero. -/
theorem SizesExact.le_of_extends (hr : Represents h (L ++ [z])) (hexact : SizesExact h size)
    (hneeds : NeedsExtension (L ++ [z]) (roundUp size)) :
    (roundUp size).toNat ≤ 2 ^ 64 - 4096 := by
  by_contra hbig
  have hlt := (roundUp size).isLt
  have hmod : (roundUp size % 0x1000).toNat = (roundUp size).toNat % 4096 := BitVec.toNat_umod
  have hpos : 0 < roundUp size % 0x1000 := by
    show 0 < (roundUp size % 0x1000).toNat
    omega
  have hunit : (0x1000 : BitVec 64).toNat = 4096 := rfl
  obtain ⟨es, -, hrun⟩ := mallocLogged_grows hr hneeds.1 hneeds.2 (Nat.le_refl L.length)
  refine not_exact_roundLogged hpos (by omega) h fun e he => hexact.2 (L.length + 1) e ?_
  rw [hrun]
  exact List.mem_append_right _ (List.mem_append_left _ (roundLogged_subset _ h he))

/-- **When size arithmetic does not lie.**  For every heap that shows a list of segments and can
grow for the request: exactly when the size is not rounded to zero by `malloc` or, when the heap
is extended, by `extend_heap`, and what is left of the segment handed out is less than `2 ^ 63`
bytes. -/
theorem sizesExact_iff (hr : Represents h (L ++ [z]))
    (hgrow : NeedsExtension (L ++ [z]) (roundUp size) → Extendable h z (roundUp size)) :
    SizesExact h size ↔ size.toNat ≤ 2 ^ 64 - 16 ∧
      (∀ s, FindsFit (L ++ [z]) (roundUp size) s →
        s.length.toNat < (roundUp size).toNat + 32 + 2 ^ 63) ∧
      (NeedsExtension (L ++ [z]) (roundUp size) → (roundUp size).toNat ≤ 2 ^ 64 - 4096) := by
  constructor
  · intro hexact
    refine ⟨hexact.le_of_exact, ?_, hexact.le_of_extends hr⟩
    rintro s ⟨hne, L', R, heq, hL, hs⟩
    rw [heq] at hr
    obtain ⟨h', es, hrun, -, -, hes⟩ := hr.mallocLogged_first hne hL hs
    have hall : ∀ e ∈ es, e.Exact := fun e he => hexact.2 (L'.length + 1) e (by rwa [hrun])
    obtain ⟨-, -, -, hrem⟩ := (hes _ acceptsExact_exact).mp hall
    by_cases hlt : roundUp size < s.length
    · exact (exact_remainderEvent hs.2).mp (hrem hlt)
    · have hle : s.length.toNat ≤ (roundUp size).toNat := Nat.not_lt.mp hlt
      omega
  · rintro ⟨hsize, hfits, hgrows⟩
    rcases request_cases (L ++ [z]) (roundUp size) with h0 | ⟨s, hfit⟩ | hneeds
    · have hzero : size = 0 := (roundUp_zero_iff.mp h0).resolve_right (by omega)
      refine SizesExact.of_run (mallocLogged_zero h0 0 h) (Or.inl rfl) ?_
      subst hzero
      exact fun e he => absurd he List.not_mem_nil
    · have hshort := hfits s hfit
      obtain ⟨hne, L', R, heq, hL, hs⟩ := hfit
      rw [heq] at hr
      obtain ⟨h', es, hrun, hstart, hend, hes⟩ := hr.mallocLogged_first hne hL hs
      obtain ⟨hlo, hhi⟩ := hr.bounds (s := s) (by simp)
      have hE := h.heapEnd.isLt
      have hs32 : (s.addr + 32).toNat = s.addr.toNat + 32 := by bv_omega
      have hle : size.toNat ≤ (roundUp size).toNat := le_roundUp hne
      have hle' : (roundUp size).toNat ≤ s.length.toNat := hs.2
      refine SizesExact.of_run hrun (Or.inr ?_) ((hes _ acceptsExact_exact).mpr
        ⟨fun _ _ => trivial, trivial, fun _ => ⟨trivial, trivial⟩,
          fun _ => (exact_remainderEvent hs.2).mpr hshort⟩)
      rw [hstart, hend, hs32]
      exact ⟨by omega, by omega⟩
    · obtain ⟨fuel, p, h', es, hrun, hgrants, -⟩ :=
        mallocLogged_extended hr hneeds (hgrow hneeds) (hgrows hneeds)
      have hle : size.toNat ≤ (roundUp size).toNat := le_roundUp hneeds.1
      obtain ⟨hlo, hhi⟩ := hgrants.within
      exact SizesExact.of_run hrun (Or.inr ⟨hlo, by omega⟩) hgrants.exact

/-- A request that extends a new heap of one page. -/
theorem sizesExact_page : SizesExact (initHeap 0x100000000000 1 default) 8192 := by
  have hr := represents_onePage
  refine (sizesExact_iff (L := []) hr fun _ => ⟨by decide, by decide, by decide⟩).mpr
    ⟨by decide, ?_, fun _ => by decide⟩
  rintro s ⟨-, L', R, heq, -, hs⟩
  have hmem : s ∈ [] ++ [initialSegment 0x100000000000 1] := by
    rw [heq]
    simp
  obtain rfl := List.mem_singleton.mp hmem
  exact absurd hs (by decide)

/-- A request of 4080 bytes less than `2 ^ 64` on a new heap of one page: `extend_heap` rounds
it to zero pages. -/
theorem not_sizesExact_page : ¬ ∀ (h : Heap) (segs : List Segment) (size : BitVec 64),
    Represents h segs → SizesExact h size := by
  intro hall
  have hr := represents_onePage
  have hneeds : NeedsExtension ([] ++ [initialSegment 0x100000000000 1])
      (roundUp 0xFFFFFFFFFFFFF010) := by
    refine ⟨by decide, fun t ht => ?_⟩
    obtain rfl := List.mem_singleton.mp ht
    decide
  have hle := (hall _ _ 0xFFFFFFFFFFFFF010 hr).le_of_extends (L := []) hr hneeds
  exact absurd hle (by decide)

end EtaOs
