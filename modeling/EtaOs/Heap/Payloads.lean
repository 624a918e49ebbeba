import EtaOs.Heap.Runs
import Mathlib.Order.CompletePartialOrder
import Mathlib.Order.Interval.Set.Disjoint

/-!
# Live payloads stay apart

In a run the payloads of the live blocks share no byte with one another or with a header,
as long as `malloc` finds no exact fit first, extends the heap only behind a segment in use
and by enough pages, and `free` merges nothing.  An exact fit stays free and is handed out
again (`payloads_overlap`).

A block is remembered with the size that was asked for, as a caller would, and its payload is that
many bytes.  The segments behind the blocks may be longer.  The invariant ties the two together:
each live block owns a segment in use that is at least as long.

* `PayloadsApart`: the property of a state.
* `FirstFit`, `TakesMore`, `KeepsPayloads`: the calls that keep it.
* `PayloadInv`: the blocks own segments in use, each its own.
* `payloadsApart_of_run`: the property holds after every run of such calls.
-/

namespace EtaOs

open ByteMemory HeapSegHeader LinkedList Tiling Relation

/-- The bytes of a block. -/
def Block.payload (b : Block) : Set ℕ := Set.Ico b.ptr.toNat (b.ptr.toNat + b.size.toNat)

/-- The bytes of a header. -/
def headerBytes (a : Addr) : Set ℕ := Set.Ico a.toNat (a.toNat + 32)

/-- **Live payloads** share no byte with one another, lie inside the heap, and contain no
byte of a header met from `heap_start`. -/
structure PayloadsApart (s : HeapState) : Prop where
  disjoint : s.live.Pairwise fun b c => Disjoint b.payload c.payload
  inside : ∀ b ∈ s.live,
    b.payload ⊆ Set.Ico s.heap.heapStart.toNat s.heap.heapEnd.toNat
  headers : ∀ b ∈ s.live, ∀ a, Met s.heap a → Disjoint b.payload (headerBytes a)

/-- The first header met whose payload is free and long enough. -/
def FirstFit (h : Heap) (r : BitVec 64) (a : Addr) : Prop :=
  Met h a ∧ FitsAt h r a ∧ ∀ b, Met h b → FitsAt h r b → a.toNat ≤ b.toNat

/-- The payload that a request finds is longer than the request: the first fit is no exact
fit, or nothing fits and the extension has room to spare. -/
def TakesMore (h : Heap) (r : BitVec 64) : Prop :=
  (∃ a, FirstFit h r a ∧ length h.mem a ≠ r) ∨
    (∀ a, Met h a → ¬ FitsAt h r a) ∧ CanGrow h r ∧ r.toNat + 32 ≠ pagesUp r.toNat

/-- The calls that keep the live payloads apart. -/
def KeepsPayloads (s : HeapState) : HeapOp → Prop
  | .malloc size => roundUp size = 0 ∨ TakesMore s.heap (roundUp size)
  | .free b => NeighboursInUse s.heap b.ptr

/-- A first fit on the list that is no exact fit. -/
theorem Represents.takesMore {h : Heap} {L R : List Segment} {t : Segment} {r : BitVec 64}
    (hr : Represents h (L ++ t :: R)) (hL : ∀ u ∈ L, ¬ u.Fits r) (ht : t.Fits r)
    (hne : t.length ≠ r) : TakesMore h r := by
  have htmem : t ∈ L ++ t :: R := by simp
  refine Or.inl ⟨t.addr, ⟨hr.met_iff.mpr ⟨t, htmem, rfl⟩, (hr.fitsAt_iff htmem).mpr ht, ?_⟩, ?_⟩
  · intro b hb hfits
    obtain ⟨u, hu, rfl⟩ := hr.met_iff.mp hb
    have hcases : u ∈ L ∨ u = t ∨ u ∈ R := by simpa using hu
    rcases hcases with huL | rfl | huR
    · exact absurd ((hr.fitsAt_iff hu).mp hfits) (hL u huL)
    · exact Nat.le_refl _
    · have hbehind : t.hi ≤ u.lo := hr.tiles.behind huR
      unfold Segment.lo Segment.hi at hbehind
      omega
  · rw [(hr.fields t htmem).1]
    exact hne

/-! ## The invariant -/

/-- A block owns a segment in use, which has room for it. -/
def Owns (b : Block) (t : Segment) : Prop :=
  t.free = false ∧ b.ptr = t.addr + 32 ∧ b.size ≤ t.length

/-- **The invariant of the heap and its blocks.**  Every live block owns a segment, and no
two own the same one. -/
structure PayloadInv (s : HeapState) (segs : List Segment) : Prop where
  represents : Represents s.heap segs
  aligned : s.heap.heapEnd.toNat % 4096 = 0
  owned : ∀ b ∈ s.live, ∃ t ∈ segs, Owns b t
  distinct : s.live.Pairwise fun b c => b.ptr ≠ c.ptr

namespace PayloadInv

variable {s : HeapState} {segs : List Segment} {b c : Block} {t u : Segment}

/-- A payload starts behind the header of its segment and ends with the segment. -/
theorem payload_bounds (hi : PayloadInv s segs) (ht : t ∈ segs) (hb : Owns b t) :
    b.ptr.toNat = t.addr.toNat + 32 ∧ b.ptr.toNat + b.size.toNat ≤ t.hi := by
  obtain ⟨-, hptr, hsize⟩ := hb
  have hval := hi.represents.payload_toNat ht
  have hle : b.size.toNat ≤ t.length.toNat := hsize
  rw [← hptr] at hval
  refine ⟨hval, ?_⟩
  unfold Segment.hi
  omega

/-- **The invariant keeps the payloads apart.** -/
theorem payloadsApart (hi : PayloadInv s segs) : PayloadsApart s where
  disjoint := by
    refine hi.distinct.imp_of_mem fun {b c} hb hc hne => ?_
    obtain ⟨t, ht, hbt⟩ := hi.owned b hb
    obtain ⟨u, hu, hcu⟩ := hi.owned c hc
    obtain ⟨hb1, hb2⟩ := hi.payload_bounds ht hbt
    obtain ⟨hc1, hc2⟩ := hi.payload_bounds hu hcu
    have htu : t ≠ u := by
      rintro rfl
      exact hne (hbt.2.1.trans hcu.2.1.symm)
    unfold Block.payload
    rw [Set.disjoint_left]
    intro x hx hx'
    obtain ⟨hx1, hx2⟩ := Set.mem_Ico.mp hx
    obtain ⟨hx3, hx4⟩ := Set.mem_Ico.mp hx'
    have hapart := (hi.represents.tiles.eq_or_apart ht hu).resolve_left htu
    unfold Segment.lo Segment.hi at *
    omega
  inside := by
    intro b hb x hx
    obtain ⟨t, ht, hbt⟩ := hi.owned b hb
    obtain ⟨hb1, hb2⟩ := hi.payload_bounds ht hbt
    obtain ⟨hlo, hhi⟩ := hi.represents.bounds ht
    obtain ⟨hx1, hx2⟩ := Set.mem_Ico.mp hx
    unfold Segment.hi at hb2
    exact Set.mem_Ico.mpr ⟨by omega, by omega⟩
  headers := by
    intro b hb a ha
    obtain ⟨t, ht, hbt⟩ := hi.owned b hb
    obtain ⟨hb1, hb2⟩ := hi.payload_bounds ht hbt
    obtain ⟨u, hu, rfl⟩ := hi.represents.met_iff.mp ha
    unfold Block.payload headerBytes
    rw [Set.disjoint_left]
    intro x hx hx'
    obtain ⟨hx1, hx2⟩ := Set.mem_Ico.mp hx
    obtain ⟨hx3, hx4⟩ := Set.mem_Ico.mp hx'
    unfold Segment.hi at hb2
    rcases hi.represents.tiles.eq_or_apart ht hu with rfl | hapart
    · omega
    · unfold Segment.lo Segment.hi at hapart
      omega

/-! ## One call -/

/-- The end of a heap of whole pages is the start of a page. -/
theorem belowEnd (hi : PayloadInv s segs) : BelowEnd s.heap := by
  obtain ⟨L, t, rfl⟩ := hi.represents.exists_last
  have hls : s.heap.lastHeader = t.addr := by simpa using hi.represents.lastHeader.symm
  unfold BelowEnd
  rw [hls]
  exact hi.represents.below_pageStart (by simp) hi.aligned

/-- The first fit on the list is the first fit in memory. -/
theorem firstFit_addr {L R : List Segment} {r : BitVec 64} {a : Addr}
    (hr : Represents s.heap (L ++ t :: R)) (hL : ∀ u ∈ L, ¬ u.Fits r) (ht : t.Fits r)
    (ha : FirstFit s.heap r a) : a = t.addr := by
  obtain ⟨hmet, hfits, hfirst⟩ := ha
  obtain ⟨u, hu, rfl⟩ := hr.met_iff.mp hmet
  have htmem : t ∈ L ++ t :: R := by simp
  have hle := hfirst t.addr (hr.met_iff.mpr ⟨t, htmem, rfl⟩) ((hr.fitsAt_iff htmem).mpr ht)
  have hufits := (hr.fitsAt_iff hu).mp hfits
  have hcases : u ∈ L ∨ u = t ∨ u ∈ R := by simpa using hu
  rcases hcases with huL | rfl | huR
  · exact absurd hufits (hL u huL)
  · rfl
  · have hbehind : t.hi ≤ u.lo := hr.tiles.behind huR
    unfold Segment.lo Segment.hi at hbehind
    omega

/-- A request that takes more than it asks for is served. -/
theorem served (hi : PayloadInv s segs) {r : BitVec 64} (hmore : TakesMore s.heap r) :
    Served s.heap segs r := by
  rcases hmore with ⟨a, ⟨hmet, hfits, -⟩, -⟩ | ⟨-, hg, -⟩
  · obtain ⟨t, ht, rfl⟩ := hi.represents.met_iff.mp hmet
    exact Or.inl ⟨t, ht, (hi.represents.fitsAt_iff ht).mp hfits⟩
  · exact Or.inr ⟨hg, hi.belowEnd⟩

/-- The segment handed out from the list is longer than the request. -/
theorem length_ne {L R : List Segment} {r : BitVec 64} (hr : Represents s.heap (L ++ t :: R))
    (hmore : TakesMore s.heap r) (hL : ∀ u ∈ L, ¬ u.Fits r) (ht : t.Fits r) : t.length ≠ r := by
  have htmem : t ∈ L ++ t :: R := by simp
  rcases hmore with ⟨a, hfirst, hne⟩ | ⟨hnone, -, -⟩
  · rw [firstFit_addr hr hL ht hfirst, (hr.fields t htmem).1] at hne
    exact hne
  · exact absurd ((hr.fitsAt_iff htmem).mpr ht) (hnone t.addr (hr.met_iff.mpr ⟨t, htmem, rfl⟩))

/-- The extension is longer than the request. -/
theorem grown_length_ne {r : BitVec 64} (hr : Represents s.heap segs) (hmore : TakesMore s.heap r)
    (hnone : ∀ u ∈ segs, ¬ u.Fits r) (hg : CanGrow s.heap r) : (grown s.heap r).length ≠ r := by
  rcases hmore with ⟨a, ⟨hmet, hfits, -⟩, -⟩ | ⟨-, -, hne⟩
  · obtain ⟨u, hu, rfl⟩ := hr.met_iff.mp hmet
    exact absurd ((hr.fitsAt_iff hu).mp hfits) (hnone u hu)
  · intro heq
    have hlen := grown_length hg
    rw [heq] at hlen
    exact hne hlen

/-- **`malloc` keeps the invariant.** -/
theorem malloc {size : BitVec 64} {fuel : ℕ} {p : Addr} {h : Heap} (hi : PayloadInv s segs)
    (hkeeps : roundUp size = 0 ∨ TakesMore s.heap (roundUp size))
    (hmalloc : malloc fuel size s.heap = some (p, h)) :
    ∃ segs', PayloadInv ⟨h, if p = 0 then s.live else ⟨p, size⟩ :: s.live⟩ segs' := by
  by_cases h0 : roundUp size = 0
  · obtain ⟨rfl, rfl⟩ := malloc_step_zero h0 hmalloc
    exact ⟨segs, hi⟩
  · have hmore := hkeeps.resolve_left h0
    have hr := hi.represents
    obtain ⟨segs', hr', hend, hallots⟩ := malloc_step hr h0 (hi.served hmore) hmalloc
    -- both kinds of request keep the segments in use and hand out a new one
    obtain ⟨hkeep, hnew, t, ht, hpt, hused, hroom⟩ : (∀ u ∈ segs, u.free = false → u ∈ segs') ∧
        (∀ u ∈ segs, u.free = false → u.addr + 32 ≠ p) ∧
          ∃ t ∈ segs', p = t.addr + 32 ∧ t.free = false ∧ roundUp size ≤ t.length := by
      rcases hallots with hfit | ⟨hnone, hg, hgrown⟩
      · refine ⟨fun u => hfit.mem_of_inUse, fun u => hfit.payload_ne hr', hfit.exists_block ?_⟩
        rintro L u R rfl hL hu
        exact length_ne hr hmore hL hu
      · refine ⟨fun u hu => hgrown.mem_of_inUse (List.mem_append_left _ hu),
          fun u hu => hgrown.payload_ne hr' (List.mem_append_left _ hu), hgrown.exists_block ?_⟩
        intro L u R heq hL hu
        have humem : u ∈ segs ++ [grown s.heap (roundUp size)] := by
          rw [heq]
          simp
        have hug : u = grown s.heap (roundUp size) := by
          rcases List.mem_append.mp humem with humem | humem
          · exact absurd hu (hnone u humem)
          · exact List.mem_singleton.mp humem
        rw [hug]
        exact grown_length_ne hr hmore hnone hg
    have hp0 : p ≠ 0 := hpt ▸ hr'.payload_ne_zero ht
    refine ⟨segs', hr', hend.trans hi.aligned, ?_, ?_⟩
    · rw [if_neg hp0]
      intro b hb
      rcases List.mem_cons.mp hb with rfl | hb
      · refine ⟨t, ht, hused, hpt, ?_⟩
        have hle := le_roundUp h0
        exact BitVec.le_trans hle hroom
      · obtain ⟨u, hu, hbu⟩ := hi.owned b hb
        exact ⟨u, hkeep u hu hbu.1, hbu⟩
    · rw [if_neg hp0]
      refine List.pairwise_cons.mpr ⟨fun b hb => ?_, hi.distinct⟩
      obtain ⟨u, hu, hbu⟩ := hi.owned b hb
      intro heq
      exact hnew u hu hbu.1 (hbu.2.1.symm.trans heq.symm)

/-- **`free` keeps the invariant.** -/
theorem free (hi : PayloadInv s segs) (hb : b ∈ s.live) (hfree : NeighboursInUse s.heap b.ptr) :
    ∃ segs', PayloadInv ⟨free b.ptr s.heap, s.live.erase b⟩ segs' := by
  obtain ⟨t, ht, hbt⟩ := hi.owned b hb
  obtain ⟨L, R, rfl⟩ := List.append_of_mem ht
  rw [hbt.2.1] at hfree ⊢
  obtain ⟨hr', -, -⟩ := free_step hi.represents hfree
  refine ⟨_, hr', ?_, ?_, hi.distinct.sublist List.erase_sublist⟩
  · show (EtaOs.free _ s.heap).heapEnd.toNat % 4096 = 0
    rw [(free_sameHeap _ _).heapEnd]
    exact hi.aligned
  · intro c hc
    have hne : b.ptr ≠ c.ptr := by
      have hperm := List.perm_cons_erase hb
      have hpair := (hperm.pairwise_iff fun {_ _} hxy => hxy.symm).mp hi.distinct
      exact (List.pairwise_cons.mp hpair).1 c hc
    obtain ⟨u, hu, hcu⟩ := hi.owned c (List.mem_of_mem_erase hc)
    have hut : u ≠ t := by
      rintro rfl
      exact hne (hbt.2.1.trans hcu.2.1.symm)
    have hmem : u ∈ L ++ R := by simpa [hut] using hu
    exact ⟨u, mem_of_mem_rest hmem, hcu⟩

end PayloadInv

/-! ## Runs -/

/-- A new heap of whole pages satisfies the invariant. -/
theorem payloadInv_initial {a n : BitVec 64} (h : Heap) (ha : a ≠ 0) (halign : a.toNat % 4096 = 0)
    (hn : 1 ≤ n.toNat) (hfit : a.toNat + 4096 * n.toNat < 2 ^ 64) :
    PayloadInv (HeapState.initial a n h) [initialSegment a n] where
  represents := by
    have hpos : a.toNat ≠ 0 := fun h0 => ha (BitVec.eq_of_toNat_eq h0)
    exact represents_initHeap h (by omega) hn hfit
  aligned := by
    have hend : (a + n * 4096).toNat = a.toNat + 4096 * n.toNat := by bv_omega
    show (a + n * 4096).toNat % 4096 = 0
    omega
  owned := fun b hb => absurd hb (List.not_mem_nil)
  distinct := List.Pairwise.nil

/-- **One call keeps the invariant.** -/
theorem payloadInv_step {s t : HeapState} {op : HeapOp} (hstep : HeapStep s op t)
    (hkeeps : KeepsPayloads s op) (hi : ∃ segs, PayloadInv s segs) : ∃ segs, PayloadInv t segs := by
  obtain ⟨segs, hi⟩ := hi
  cases hstep with
  | malloc size fuel p h hmalloc => exact hi.malloc hkeeps hmalloc
  | free b hb => exact hi.free hb hkeeps

/-- The invariant holds after every run of such calls. -/
theorem payloadInv_of_run {a n : BitVec 64} {h : Heap} {s : HeapState} (ha : a ≠ 0)
    (halign : a.toNat % 4096 = 0) (hn : 1 ≤ n.toNat) (hfit : a.toNat + 4096 * n.toNat < 2 ^ 64)
    (hrun : HeapRun KeepsPayloads (HeapState.initial a n h) s) : ∃ segs, PayloadInv s segs := by
  refine Runs.invariant (P := fun s => ∃ segs, PayloadInv s segs) ?_ hrun
    ⟨_, payloadInv_initial h ha halign hn hfit⟩
  rintro s t ⟨op, hstep, hkeeps⟩ hi
  exact payloadInv_step hstep hkeeps hi

/-- **Every request of such a run returns.** -/
theorem malloc_returns_of_run {a n : BitVec 64} {h : Heap} {s : HeapState} (ha : a ≠ 0)
    (halign : a.toNat % 4096 = 0) (hn : 1 ≤ n.toNat) (hfit : a.toNat + 4096 * n.toNat < 2 ^ 64)
    (hrun : HeapRun KeepsPayloads (HeapState.initial a n h) s) {size : BitVec 64}
    (hkeeps : KeepsPayloads s (.malloc size)) :
    ∃ fuel p h', malloc fuel size s.heap = some (p, h') := by
  obtain ⟨segs, hi⟩ := payloadInv_of_run ha halign hn hfit hrun
  by_cases h0 : roundUp size = 0
  · exact ⟨1, 0, s.heap, malloc_zero h0 0 s.heap⟩
  · obtain ⟨p, h', -, htotal, -⟩ :=
      malloc_spec hi.represents h0 (hi.served (hkeeps.resolve_left h0))
    exact ⟨_, p, h', htotal _ (Nat.le_refl _)⟩

/-- **Live payloads stay apart** in every run whose calls neither find an exact fit first, nor
extend the heap behind a free segment or by too few pages, nor merge segments. -/
theorem payloadsApart_of_run {a n : BitVec 64} {h : Heap} {s : HeapState} (ha : a ≠ 0)
    (halign : a.toNat % 4096 = 0) (hn : 1 ≤ n.toNat) (hfit : a.toNat + 4096 * n.toNat < 2 ^ 64)
    (hrun : HeapRun KeepsPayloads (HeapState.initial a n h) s) : PayloadsApart s := by
  obtain ⟨segs, hi⟩ := payloadInv_of_run ha halign hn hfit hrun
  exact hi.payloadsApart

/-- Two requests of 16 bytes on a heap of one page, then the first block freed. -/
theorem payloadsApart_of_run_page : ∃ s, HeapRun KeepsPayloads
    (HeapState.initial 0x100000000000 1 default) s ∧ s.live = [⟨0x100000000050, 16⟩] ∧
      PayloadsApart s := by
  have hr := represents_onePage
  obtain ⟨h₁, hmalloc₁, hr₁, -⟩ := malloc_first 16 1 (L := []) (R := []) hr
    (by decide) (by simp) (by decide) (by decide)
  obtain ⟨h₂, hmalloc₂, hr₂, -⟩ := malloc_first 16 2 (L := [⟨0x100000000000, 16, false⟩])
    (s := ⟨0x100000000030, 4016, true⟩) (R := []) hr₁ (by decide) (by decide)
    (by decide) (by decide)
  have hstep₁ := HeapStep.malloc (HeapState.initial 0x100000000000 1 default) 16 1 _ _ hmalloc₁
  have hkeeps₁ : KeepsPayloads (HeapState.initial 0x100000000000 1 default) (.malloc 16) :=
    Or.inr (hr.takesMore (L := []) (by simp) (by decide) (by decide))
  have hstep₂ := HeapStep.malloc ⟨h₁, [⟨0x100000000020, 16⟩]⟩ 16 2 _ _ hmalloc₂
  have hkeeps₂ : KeepsPayloads ⟨h₁, [⟨0x100000000020, 16⟩]⟩ (.malloc 16) :=
    Or.inr (hr₁.takesMore (L := [⟨0x100000000000, 16, false⟩]) (by decide) (by decide) (by decide))
  have hstep₃ := HeapStep.free ⟨h₂, [⟨0x100000000050, 16⟩, ⟨0x100000000020, 16⟩]⟩
    ⟨0x100000000020, 16⟩ (List.mem_cons_of_mem _ List.mem_cons_self)
  have hkeeps₃ : KeepsPayloads ⟨h₂, [⟨0x100000000050, 16⟩, ⟨0x100000000020, 16⟩]⟩
      (.free ⟨0x100000000020, 16⟩) :=
    hr₂.neighboursInUse (L := []) (s := ⟨0x100000000000, 16, false⟩) (by simp) (by decide)
  have hrun : HeapRun KeepsPayloads (HeapState.initial 0x100000000000 1 default) _ :=
    ((ReflTransGen.single ⟨_, hstep₁, hkeeps₁⟩).tail ⟨_, hstep₂, hkeeps₂⟩).tail ⟨_, hstep₃, hkeeps₃⟩
  exact ⟨_, hrun, rfl, payloadsApart_of_run (by decide) (by decide) (by decide) (by decide) hrun⟩

/-- **An exact fit is handed out twice.**  The payloads of two live blocks are then the same
bytes. -/
theorem payloads_overlap : ¬ ∀ (h : Heap) (a n : BitVec 64) (s : HeapState), a.toNat % 4096 = 0 →
    1 ≤ n.toNat → HeapRun (fun _ _ => True) (HeapState.initial a n h) s → PayloadsApart s := by
  intro hall
  have hr := represents_onePage
  obtain ⟨h', hmalloc, -, -, hsame⟩ := malloc_first 4064 1 (L := []) (R := [])
    hr (by decide) (by simp) (by decide) (by decide)
  obtain rfl := hsame (by decide)
  have hrun : HeapRun (fun _ _ => True) (HeapState.initial 0x100000000000 1 default)
      ⟨initHeap 0x100000000000 1 default,
        [⟨0x100000000020, 4064⟩, ⟨0x100000000020, 4064⟩]⟩ := by
    refine ReflTransGen.trans (ReflTransGen.single (b := ⟨initHeap 0x100000000000 1 default,
      [⟨0x100000000020, 4064⟩]⟩) ⟨.malloc 4064, ?_, trivial⟩)
      (ReflTransGen.single ⟨.malloc 4064, ?_, trivial⟩)
    · exact HeapStep.malloc (HeapState.initial 0x100000000000 1 default) 4064 1 _ _ hmalloc
    · exact HeapStep.malloc ⟨_, [⟨0x100000000020, 4064⟩]⟩ 4064 1 _ _ hmalloc
  have hapart := (hall default 0x100000000000 1 _ (by decide) (by decide) hrun).disjoint
  have hdisjoint := (List.pairwise_cons.mp hapart).1 ⟨0x100000000020, 4064⟩ List.mem_cons_self
  exact Set.disjoint_left.mp hdisjoint (Set.mem_Ico.mpr ⟨Nat.le_refl _, by decide⟩)
    (Set.mem_Ico.mpr ⟨Nat.le_refl _, by decide⟩)

end EtaOs
