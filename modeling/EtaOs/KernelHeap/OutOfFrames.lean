import EtaOs.Allocator.LiveFrames
import EtaOs.Allocator.Paged
import EtaOs.Heap.Header
import EtaOs.KernelHeap.Moves
import EtaOs.Paging.TableTree

/-!
# Running out of frames

`request_page` returns `NULL` when it finds no frame.  None of its callers looks: `map_mem`
clears frame `0` and links it as a table, the mapping loops map it as a page, and
`extend_heap` moves `heap_end` and links the new segment all the same.

That the heap should survive is a statement about the state afterwards, and the state afterwards is
hard to describe when frame `0` has been written over.  So the record is used: a frame that has
been requested has been linked or mapped, and when it is `NULL`, an entry points at frame `0`.

* `PageTableManager.mapMemStores`: the entries that a call of `map_mem` stores.
* `linked_of_mapMem`: every frame that a call requests is stored in an entry, and so is the
  page it maps.
* `LinkedBetween`: every frame requested between two states is stored in an entry by a call
  of `map_mem` between them.
* `SurvivesNull`: what should hold of a call that is given `NULL`.
* `survivesNull_iff`: it never does.
-/

namespace EtaOs

open ByteMemory Fallible

variable {σ : Type}

/-! ## The entries that `map_mem` stores -/

/-- The entry is present and its address field is the frame `f`. -/
def PageDirEntry.PointsAt (e : PageDirEntry) (f : BitVec 64) : Prop :=
  e.getFlag .present = true ∧ e.getAddress <<< 12 = f

/-- The entries stored by an upper level of `map_mem`. -/
def enterTableStores (source : FrameSource σ) (s : Machine σ) (table index : BitVec 64) :
    List PageDirEntry :=
  match s.load64 (table + 8 * index) with
  | none => []
  | some value =>
      let pde : PageDirEntry := ⟨value⟩
      if !pde.getFlag .present then [mappedEntry pde ((s.takeFrame source).1 >>> 12)] else []

/-- The entry stored by the last level of `map_mem`. -/
def setPageStores (s : Machine σ) (table index physMem : BitVec 64) : List PageDirEntry :=
  match s.load64 (table + 8 * index) with
  | none => []
  | some value => [mappedEntry ⟨value⟩ (physMem >>> 12)]

/-- The entries stored by a call of `map_mem`, in the order it stores them. -/
def PageTableManager.mapMemStores (source : FrameSource σ) (ptm : PageTableManager)
    (s : Machine σ) (virtMem physMem : BitVec 64) : List PageDirEntry :=
  let indexer := PageMapIndexer.ofAddr virtMem
  enterTableStores source s ptm.pml4Addr indexer.pdpI ++
    (enterTable source s ptm.pml4Addr indexer.pdpI).elim [] fun pdp =>
      enterTableStores source pdp.2 pdp.1 indexer.pdI ++
        (enterTable source pdp.2 pdp.1 indexer.pdI).elim [] fun pd =>
          enterTableStores source pd.2 pd.1 indexer.ptI ++
            (enterTable source pd.2 pd.1 indexer.ptI).elim [] fun pt =>
              setPageStores pt.2 pt.1 indexer.pI physMem

/-- The entry of a mapping points at its page. -/
theorem mappedEntry_pointsAt (e : PageDirEntry) (p : BitVec 64) :
    (mappedEntry e (p >>> 12)).PointsAt (frameOf p) := by
  refine ⟨?_, ?_⟩
  · rw [getFlag_present]
    exact mappedEntry_present e _
  · rw [getAddress_shift]
    exact mappedEntry_address e p

variable {source : FrameSource σ} {ptm : PageTableManager}

/-- An upper level stores an entry for the frame it requests, when it requests one. -/
theorem linked_of_enterTable {s s' : Machine σ} {t i u : BitVec 64}
    (h : enterTable source s t i = some (u, s')) :
    ∃ new, s'.requests = new ++ s.requests ∧
      ∀ r ∈ new, ∃ e ∈ enterTableStores source s t i, e.PointsAt (frameOf r.frame) := by
  obtain ⟨-, ⟨rfl, -⟩ | ⟨hrequests, -⟩⟩ := enterTable_requests h
  · exact ⟨[], rfl, fun r hr => absurd hr List.not_mem_nil⟩
  · refine ⟨[nextRequest source s], hrequests, fun r hr => ?_⟩
    obtain rfl := List.mem_singleton.mp hr
    rw [enterTable, Option.bind_eq_some_iff] at h
    obtain ⟨value, hvalue, h⟩ := h
    dsimp only at h
    unfold enterTableStores
    rw [hvalue]
    dsimp only
    split at h
    next habsent =>
      rw [if_pos habsent]
      exact ⟨_, List.mem_singleton_self _, mappedEntry_pointsAt _ _⟩
    next =>
      -- a level whose entry is present requests nothing
      obtain ⟨-, rfl⟩ := Prod.mk.inj (Option.some.inj h)
      exact absurd (congrArg List.length hrequests) (by simp)

/-- **Every frame that `map_mem` requests is stored in an entry**, and so is its page. -/
theorem linked_of_mapMem {s s' : Machine σ} {v p : BitVec 64}
    (h : ptm.mapMem source s v p = some s') :
    (∃ new, s'.requests = new ++ s.requests ∧
      ∀ r ∈ new, ∃ e ∈ ptm.mapMemStores source s v p, e.PointsAt (frameOf r.frame)) ∧
      ∃ e ∈ ptm.mapMemStores source s v p, e.PointsAt (frameOf p) := by
  simp only [PageTableManager.mapMem, Option.bind_eq_some_iff] at h
  obtain ⟨pdp, h1, pd, h2, pt, h3, h4⟩ := h
  have hstores : ptm.mapMemStores source s v p =
      enterTableStores source s ptm.pml4Addr (PageMapIndexer.ofAddr v).pdpI ++
        (enterTableStores source pdp.2 pdp.1 (PageMapIndexer.ofAddr v).pdI ++
          (enterTableStores source pd.2 pd.1 (PageMapIndexer.ofAddr v).ptI ++
            setPageStores pt.2 pt.1 (PageMapIndexer.ofAddr v).pI p)) := by
    rw [PageTableManager.mapMemStores, h1, Option.elim_some, h2, Option.elim_some, h3,
      Option.elim_some]
  obtain ⟨new₁, hr₁, hl₁⟩ := linked_of_enterTable h1
  obtain ⟨new₂, hr₂, hl₂⟩ := linked_of_enterTable h2
  obtain ⟨new₃, hr₃, hl₃⟩ := linked_of_enterTable h3
  rw [hstores]
  constructor
  · refine ⟨new₃ ++ (new₂ ++ new₁), ?_, fun r hr => ?_⟩
    · rw [(setPage_requests h4).1, hr₃, hr₂, hr₁, List.append_assoc, List.append_assoc]
    · simp only [List.mem_append] at hr ⊢
      rcases hr with hr | hr | hr
      · obtain ⟨e, he, hpoints⟩ := hl₃ r hr
        exact ⟨e, Or.inr (Or.inr (Or.inl he)), hpoints⟩
      · obtain ⟨e, he, hpoints⟩ := hl₂ r hr
        exact ⟨e, Or.inr (Or.inl he), hpoints⟩
      · obtain ⟨e, he, hpoints⟩ := hl₁ r hr
        exact ⟨e, Or.inl he, hpoints⟩
  · rw [setPage, Option.bind_eq_some_iff] at h4
    obtain ⟨value, hvalue, -⟩ := h4
    refine ⟨mappedEntry ⟨value⟩ (p >>> 12), ?_, mappedEntry_pointsAt _ _⟩
    unfold setPageStores
    rw [hvalue]
    simp

/-! ## The entries stored by the heap -/

/-- The entries that a recorded call stored. -/
def MapCall.stores (source : FrameSource σ) (ptm : PageTableManager) (c : MapCall σ) :
    List PageDirEntry :=
  ptm.mapMemStores source c.before c.virtMem c.physMem

/-- Every frame requested between the two states is stored in an entry, by a call of
`map_mem` between them. -/
def LinkedBetween (source : FrameSource σ) (ptm : PageTableManager) (h h' : KernelHeap σ) : Prop :=
  ∃ new calls, h'.machine.requests = new ++ h.machine.requests ∧ h'.mapCalls = calls ++ h.mapCalls ∧
    ∀ r ∈ new, ∃ c ∈ calls, ∃ e ∈ c.stores source ptm, e.PointsAt (frameOf r.frame)

instance : Std.Refl (LinkedBetween source ptm) where
  refl _ := ⟨[], [], rfl, rfl, fun _ hr => absurd hr List.not_mem_nil⟩

instance : IsTrans (KernelHeap σ) (LinkedBetween source ptm) where
  trans := by
    rintro h₁ h₂ h₃ ⟨new, calls, hnew, hcalls, hlinked⟩ ⟨new', calls', hnew', hcalls', hlinked'⟩
    refine ⟨new' ++ new, calls' ++ calls, ?_, ?_, fun r hr => ?_⟩
    · rw [hnew', hnew, List.append_assoc]
    · rw [hcalls', hcalls, List.append_assoc]
    · rcases List.mem_append.mp hr with hr | hr
      · obtain ⟨c, hc, hrest⟩ := hlinked' r hr
        exact ⟨c, List.mem_append_left _ hc, hrest⟩
      · obtain ⟨c, hc, hrest⟩ := hlinked r hr
        exact ⟨c, List.mem_append_right _ hc, hrest⟩

theorem HeapM.mapMem_eq {h : KernelHeap σ} {v p : BitVec 64} {s : Machine σ}
    (hs : ptm.mapMem source h.machine v p = some s) : mapMem source ptm v p h =
      some ((), { h with machine := s, mapCalls := ⟨h.machine, v, p⟩ :: h.mapCalls }) := by
  rw [mapMem, hs]
  rfl

/-- The frame requested for a page of the heap is stored by the call that maps it. -/
instance : HeapRel source ptm (LinkedBetween source ptm) where
  quiet := fun h h' hsame => ⟨[], [], hsame.requests, hsame.mapCalls, fun _ hr =>
    absurd hr List.not_mem_nil⟩
  mapMem := by
    intro v p h w h' heq
    obtain ⟨s, hs, heq⟩ := Option.map_eq_some_iff.mp heq
    obtain ⟨-, rfl⟩ := Prod.mk.inj heq
    obtain ⟨new, hnew, hlinked⟩ := (linked_of_mapMem hs).1
    exact ⟨new, [⟨h.machine, v, p⟩], hnew, rfl, fun r hr =>
      ⟨_, List.mem_singleton_self _, hlinked r hr⟩⟩
  mapNewPage := by
    intro pos h w h' heq
    obtain ⟨-, s, hs, rfl⟩ := HeapM.mapNewPage_eq_some heq
    obtain ⟨⟨new, hnew, hlinked⟩, hpage⟩ := linked_of_mapMem hs
    refine ⟨new ++ [nextRequest source h.machine], [⟨_, _, _⟩], ?_, rfl, fun r hr => ?_⟩
    · rw [List.append_assoc]
      exact hnew.trans (congrArg (new ++ ·) (Machine.takeFrame_requests source h.machine))
    · refine ⟨_, List.mem_singleton_self _, ?_⟩
      rcases List.mem_append.mp hr with hr | hr
      · exact hlinked r hr
      · obtain rfl := List.mem_singleton.mp hr
        exact hpage

/-! ## What a call that is given `NULL` leaves -/

namespace KernelHeap

/-- The fields of a header, read through the page tables. -/
def header (h : KernelHeap σ) (seg : Addr) : Option Header :=
  (h.machine.load64 seg).bind fun length =>
    (h.machine.load64 (seg + 8)).bind fun next =>
      (h.machine.load64 (seg + 16)).bind fun last =>
        (h.machine.load8 (seg + 24)).map fun flag => ⟨length, next, last, flag != 0⟩

/-- The first `n` segments of the list from `seg` on. -/
def segmentsFrom (h : KernelHeap σ) : ℕ → Addr → List (Addr × Header)
  | 0, _ => []
  | n + 1, seg =>
      if seg = 0 then []
      else (h.header seg).elim [] fun hd => (seg, hd) :: segmentsFrom h n hd.next

/-- The first `n` segments of the heap. -/
def segments (h : KernelHeap σ) (n : ℕ) : List (Addr × Header) := h.segmentsFrom n h.heapStart

end KernelHeap

/-- A call of `request_page` between the two states returned `NULL`. -/
def NullRequested (h h' : KernelHeap σ) : Prop :=
  ∃ new, h'.machine.requests = new ++ h.machine.requests ∧ ∃ r ∈ new, r.frame = 0

/-- Between the two states no entry was made to point at frame `0`, and frame `0`, the heap
list and the globals of the heap are as they were. -/
structure LeftIntact (source : FrameSource σ) (ptm : PageTableManager) (h h' : KernelHeap σ) :
    Prop where
  entries : ∀ calls, h'.mapCalls = calls ++ h.mapCalls →
    ∀ c ∈ calls, ∀ e ∈ c.stores source ptm, ¬ e.PointsAt 0
  frameZero : ∀ x : Addr, x.toNat < 4096 → h'.machine.mem x = h.machine.mem x
  segments : ∀ n, h'.segments n = h.segments n
  heapStart : h'.heapStart = h.heapStart
  heapEnd : h'.heapEnd = h.heapEnd
  lastHeader : h'.lastHeader = h.lastHeader

/-- When the call returns and a request in it returned `NULL`, the state is left intact. -/
def SurvivesNull (source : FrameSource σ) (ptm : PageTableManager) (call : HeapCall)
    (h : KernelHeap σ) : Prop :=
  ∀ fuel h', call.run source ptm fuel h = some ((), h') → NullRequested h h' →
    LeftIntact source ptm h h'

/-- **`NULL` is linked like any other frame.**  Between two states in which `NULL` was
requested an entry was made to point at frame `0`. -/
theorem not_leftIntact {h h' : KernelHeap σ} (hlinked : LinkedBetween source ptm h h')
    (hnull : NullRequested h h') : ¬ LeftIntact source ptm h h' := by
  intro hintact
  obtain ⟨new, calls, hnew, hcalls, hlinked⟩ := hlinked
  obtain ⟨new', hnew', r, hr, hzero⟩ := hnull
  obtain rfl := List.append_cancel_right (hnew'.symm.trans hnew)
  obtain ⟨c, hc, e, he, hpoints⟩ := hlinked r hr
  refine hintact.entries calls hcalls c hc e he ?_
  rw [hzero] at hpoints
  exact hpoints

/-- **No call survives `NULL`.**  For every state of the page tables, the allocator and the
heap, a call leaves the state intact when it is given `NULL` exactly when, wherever it
returns, none of its requests returned `NULL`. -/
theorem survivesNull_iff (ptm : PageTableManager) (call : HeapCall)
    (h : KernelHeap PageFrameAllocator) :
    SurvivesNull globalAllocator ptm call h ↔
      ∀ fuel h', call.run globalAllocator ptm fuel h = some ((), h') → ¬ NullRequested h h' := by
  constructor
  · intro hsurvives fuel h' hrun hnull
    exact not_leftIntact (moves_heapCall call fuel h () h' hrun) hnull
      (hsurvives fuel h' hrun hnull)
  · intro hnever fuel h' hrun hnull
    exact absurd hnull (hnever fuel h' hrun)

/-! ## An allocator without frames -/

/-- Before paging, with a bitmap of 513 bytes at `0x8000` whose bits are all set and which
`request_page` has scanned to its end, and zeros everywhere else. -/
def exhausted : KernelHeap PageFrameAllocator where
  machine :=
    { mem := fill (fun _ => 0) 0x8000 513 0xff
      cr3 := none
      requests := []
      alloc := ⟨⟨513, 0x8000⟩, 513, 0, 0, 0x1000000, true, 0x1000000⟩ }
  mapCalls := []
  heapStart := 0
  heapEnd := 0
  lastHeader := 0

/-- A scan that is at its end returns `NULL`. -/
theorem request_of_scanned {s : Kernel}
    (h : ¬ s.alloc.pageBitmapIndex < s.alloc.pageBitmap.size) :
    globalAllocator.request s = (0, s) := by
  have hrun : Paged.requestPage s = some (0, s) := by
    unfold Paged.requestPage
    cases s.alloc.pageBitmap.size.toNat with
    | zero => rfl
    | succ n =>
        unfold Paged.requestLoop
        exact if_neg h
  show (Paged.requestPage s).getD (0, s) = (0, s)
  rw [hrun, Option.getD_some]

/-- A page mapped without a frame left for its tables: the PML4 at `0x1000` is empty, and
its entry is pointed at frame `0`. -/
theorem not_survivesNull_exhausted :
    ¬ SurvivesNull globalAllocator ⟨0x1000⟩ (.mapMem 0x400000 0x5000) exhausted := by
  intro hsurvives
  have hscanned : ∀ s : Kernel, ¬ s.alloc.pageBitmapIndex < s.alloc.pageBitmap.size →
      ¬ (globalAllocator.request s).2.alloc.pageBitmapIndex <
          (globalAllocator.request s).2.alloc.pageBitmap.size ∧
        (globalAllocator.request s).1 = 0 := by
    intro s hs
    have hnull := request_of_scanned hs
    rw [hnull]
    exact ⟨hs, rfl⟩
  obtain ⟨s', hs'⟩ := mapMem_isSome globalAllocator (s := exhausted.machine) rfl ⟨0x1000⟩
    0x400000 0x5000
  have hrun := HeapM.mapMem_eq (h := exhausted) hs'
  -- every request returned `NULL`, and the first level made one
  obtain ⟨-, hzero⟩ := mapMem_record
    (P := fun a : PageFrameAllocator => ¬ a.pageBitmapIndex < a.pageBitmap.size)
    (R := fun f => f = 0) hscanned hs' (by decide) fun r hr => absurd hr List.not_mem_nil
  have hmem : nextRequest globalAllocator exhausted.machine ∈ s'.requests := by
    have hcalls := hs'
    simp only [PageTableManager.mapMem, Option.bind_eq_some_iff] at hcalls
    obtain ⟨pdp, h1, pd, h2, pt, h3, h4⟩ := hcalls
    rw [(setPage_requests h4).1]
    refine ((enterTable_suffix h2).trans (enterTable_suffix h3)).subset ?_
    obtain ⟨-, ⟨-, e, he, hpresent⟩ | ⟨hrequests, -⟩⟩ := enterTable_requests h1
    · rw [(Machine.direct_of_cr3_none rfl _).load64] at he
      obtain rfl := Option.some.inj he
      exact absurd hpresent (by decide)
    · rw [hrequests]
      exact List.mem_cons_self
  have hnull : NullRequested exhausted { exhausted with
      machine := s', mapCalls := ⟨exhausted.machine, 0x400000, 0x5000⟩ :: exhausted.mapCalls } :=
    ⟨s'.requests, (List.append_nil _).symm, _, hmem, hzero _ hmem⟩
  exact not_leftIntact (moves_heapCall (.mapMem 0x400000 0x5000) 0 _ _ _ hrun) hnull
    (hsurvives 0 _ hrun hnull)

end EtaOs
