import EtaOs.KernelHeap.Model
import EtaOs.Library.Fallible

/-!
# What the programs of the heap keep to

The programs of the heap read and write through pointers, set the globals, and map pages.  A
relation between states that does not depend on memory and the globals holds between the
start and the end of every program as soon as it holds for the mappings.

Such relations are needed for everything that is not about the heap itself, such as that requests
are only added to the record.  Without this module each of them would be an induction over the
loops of `malloc`.

* `HeapRel`: such a relation.
* `HeapCall`: the calls that map memory.
* `moves_heapCall`: every call moves by every such relation.
-/

namespace EtaOs

open ByteMemory Fallible

variable {σ : Type}

/-- The two states have the same records, paging register and allocator. -/
structure SameRecords (h h' : KernelHeap σ) : Prop where
  requests : h'.machine.requests = h.machine.requests
  cr3 : h'.machine.cr3 = h.machine.cr3
  alloc : h'.machine.alloc = h.machine.alloc
  mapCalls : h'.mapCalls = h.mapCalls

/-- A preorder on the states of the heap that relates states with the same records. -/
class QuietRel (R : KernelHeap σ → KernelHeap σ → Prop) : Prop extends
    Std.Refl R, IsTrans (KernelHeap σ) R where
  quiet : ∀ h h', SameRecords h h' → R h h'

instance : QuietRel (SameRecords (σ := σ)) where
  refl _ := ⟨rfl, rfl, rfl, rfl⟩
  trans := fun _ _ _ h h' => ⟨h'.requests.trans h.requests, h'.cr3.trans h.cr3,
    h'.alloc.trans h.alloc, h'.mapCalls.trans h.mapCalls⟩
  quiet := fun _ _ h => h

/-- A preorder by which the mappings move as well. -/
class HeapRel (source : FrameSource σ) (ptm : PageTableManager)
    (R : KernelHeap σ → KernelHeap σ → Prop) : Prop extends QuietRel R where
  mapMem : ∀ v p, Moves R (HeapM.mapMem source ptm v p)
  mapNewPage : ∀ pos, Moves R (HeapM.mapNewPage source ptm pos)

/-- A request that returns. -/
theorem HeapM.requestPage_eq_some {source : FrameSource σ} {h h' : KernelHeap σ} {page : BitVec 64}
    (hrun : HeapM.requestPage source h = some (page, h')) :
    source.faults h.machine = false ∧ page = (h.machine.takeFrame source).1 ∧
      h' = { h with machine := (h.machine.takeFrame source).2 } := by
  obtain ⟨r, hr, heq⟩ := Option.map_eq_some_iff.mp hrun
  obtain ⟨rfl, rfl⟩ := Prod.mk.inj heq
  have hreturns : source.faults h.machine = false := by
    by_contra hfault
    rw [Machine.requestFrame, if_pos (Bool.eq_true_of_not_eq_false hfault)] at hr
    exact Option.some_ne_none r hr.symm
  obtain rfl := Machine.requestFrame_eq_some hr
  exact ⟨hreturns, rfl, rfl⟩

/-- A new page that is mapped: the request returns, and `map_mem` returns behind it. -/
theorem HeapM.mapNewPage_eq_some {source : FrameSource σ} {ptm : PageTableManager} {pos : Addr}
    {h h' : KernelHeap σ} {u : Unit} (hrun : HeapM.mapNewPage source ptm pos h = some (u, h')) :
    source.faults h.machine = false ∧
      ∃ s, ptm.mapMem source (h.machine.takeFrame source).2 pos (h.machine.takeFrame source).1 =
          some s ∧
        h' = { h with
          machine := s
          mapCalls := ⟨(h.machine.takeFrame source).2, pos, (h.machine.takeFrame source).1⟩ ::
            h.mapCalls } := by
  obtain ⟨page, h₁, hrequest, hmap⟩ := bind_eq_some.mp hrun
  obtain ⟨hreturns, rfl, rfl⟩ := HeapM.requestPage_eq_some hrequest
  obtain ⟨s, hs, heq⟩ := Option.map_eq_some_iff.mp hmap
  obtain ⟨-, rfl⟩ := Prod.mk.inj heq
  exact ⟨hreturns, s, hs, rfl⟩

/-- A call that maps memory. -/
inductive HeapCall where
  | mapMem (virtMem physMem : BitVec 64)
  | initHeap (heapAddr pageCount : BitVec 64)
  | extendHeap (length : BitVec 64)
  | malloc (size : BitVec 64)

/-- The call as a program.  The fuel matters to `malloc` only. -/
def HeapCall.run (source : FrameSource σ) (ptm : PageTableManager) (fuel : ℕ) :
    HeapCall → HeapM σ Unit
  | mapMem virtMem physMem => HeapM.mapMem source ptm virtMem physMem
  | initHeap heapAddr pageCount => HeapM.initHeap source ptm heapAddr pageCount
  | extendHeap length => HeapM.extendHeap source ptm length
  | malloc size => do
      let _ ← HeapM.malloc source ptm fuel size
      pure ()

variable {R : KernelHeap σ → KernelHeap σ → Prop}

namespace HeapM

/-! ## Headers -/

section Headers

variable [hR : QuietRel R] {a seg this : Addr} {v : BitVec 64}

include hR

theorem moves_load64 : Moves R (load64 a : HeapM σ (BitVec 64)) := by
  intro h w h' heq
  obtain ⟨_, -, heq⟩ := Option.map_eq_some_iff.mp heq
  obtain ⟨-, rfl⟩ := Prod.mk.inj heq
  exact hR.refl h

/-- A store to memory, to one byte or to eight. -/
theorem moves_store (store : Machine σ → Option (Machine σ))
    (hstore : ∀ s s', store s = some s' → ∃ mem, s' = { s with mem := mem }) :
    Moves R (fun h => (store h.machine).map fun s => ((), { h with machine := s }) :
      HeapM σ Unit) := by
  intro h w h' heq
  obtain ⟨s, hs, heq⟩ := Option.map_eq_some_iff.mp heq
  obtain ⟨-, rfl⟩ := Prod.mk.inj heq
  obtain ⟨mem, rfl⟩ := hstore _ _ hs
  exact hR.quiet _ _ ⟨rfl, rfl, rfl, rfl⟩

theorem moves_store64 : Moves R (store64 a v : HeapM σ Unit) := by
  refine moves_store (fun s => s.store64 a v) fun s s' hs => ?_
  obtain ⟨p, -, rfl⟩ := Option.map_eq_some_iff.mp hs
  exact ⟨_, rfl⟩

theorem moves_store8 {w : BitVec 8} : Moves R (store8 a w : HeapM σ Unit) := by
  refine moves_store (fun s => s.store8 a w) fun s s' hs => ?_
  obtain ⟨p, -, rfl⟩ := Option.map_eq_some_iff.mp hs
  exact ⟨_, rfl⟩

theorem moves_setFree {flag : Bool} : Moves R (setFree seg flag : HeapM σ Unit) := moves_store8

theorem moves_load8 : Moves R (load8 a : HeapM σ (BitVec 8)) := by
  intro h w h' heq
  obtain ⟨_, -, heq⟩ := Option.map_eq_some_iff.mp heq
  obtain ⟨-, rfl⟩ := Prod.mk.inj heq
  exact hR.refl h

theorem moves_free : Moves R (free seg : HeapM σ Bool) := moves_load8.bind fun _ => moves_pure _

/-- A store to globals. -/
theorem moves_globals (start stop last : KernelHeap σ → Addr) :
    Moves R (modify fun h =>
      { h with heapStart := start h, heapEnd := stop h, lastHeader := last h } : HeapM σ PUnit) :=
  moves_modify fun _ => hR.quiet _ _ ⟨rfl, rfl, rfl, rfl⟩

theorem moves_split {r : BitVec 64} :
    Moves R (split this r : HeapM σ Addr) := by
  refine Moves.ite (moves_pure _) (moves_load64.bind fun _ => Moves.ite (moves_pure _) ?_)
  refine moves_load64.bind fun _ => moves_store64.bind fun _ => moves_load64.bind fun _ => ?_
  refine moves_store64.bind fun _ => moves_store64.bind fun _ => moves_store64.bind fun _ => ?_
  refine moves_store64.bind fun _ => moves_free.bind fun _ => moves_setFree.bind fun _ => ?_
  exact moves_store64.bind fun _ => (moves_globals _ _ _).bind fun _ =>
    moves_pure _

theorem moves_combineForward :
    Moves R (combineForward this : HeapM σ Unit) := by
  refine moves_load64.bind fun _ => Moves.ite (moves_pure _) ?_
  refine moves_load64.bind fun _ => moves_free.bind fun _ => Moves.ite (moves_pure _) ?_
  refine moves_load64.bind fun _ => (moves_globals _ _ _).bind fun _ => ?_
  refine moves_load64.bind fun _ => moves_load64.bind fun _ => Moves.bind (Moves.ite ?_ ?_) ?_
  · exact moves_load64.bind fun _ => moves_load64.bind fun _ => moves_store64
  · exact moves_pure _
  · exact fun _ => moves_load64.bind fun _ => moves_load64.bind fun _ => moves_load64.bind fun _ =>
      moves_store64

theorem moves_combineBackward :
    Moves R (combineBackward this : HeapM σ Unit) := by
  refine moves_load64.bind fun _ => Moves.ite (moves_pure _) ?_
  refine moves_load64.bind fun _ => moves_free.bind fun _ => Moves.ite ?_ (moves_pure _)
  exact moves_load64.bind fun _ => moves_combineForward

theorem moves_startList {n : BitVec 64} : Moves R (startList a n : HeapM σ Unit) := by
  refine (moves_globals _ _ _).bind fun _ => moves_store64.bind fun _ =>
    moves_store64.bind fun _ => ?_
  exact moves_store64.bind fun _ => moves_setFree.bind fun _ => moves_globals _ _ _

theorem moves_linkLast {n : BitVec 64} : Moves R (linkLast seg n : HeapM σ Unit) := by
  refine moves_setFree.bind fun _ => moves_get.bind fun _ => moves_store64.bind fun _ => ?_
  refine moves_get.bind fun _ => moves_store64.bind fun _ => (moves_globals _ _ _).bind fun _ => ?_
  exact moves_store64.bind fun _ => moves_store64.bind fun _ => moves_combineBackward

theorem moves_takeSegment {size : BitVec 64} {cur : Addr} :
    Moves R (takeSegment size cur : HeapM σ (Option Addr)) := by
  refine moves_free.bind fun _ => Moves.ite ?_ (moves_pure _)
  refine moves_load64.bind fun _ => Moves.ite ?_ ?_
  · exact moves_split.bind fun _ => moves_setFree.bind fun _ => moves_pure _
  · exact moves_load64.bind fun _ => Moves.ite (moves_pure _) (moves_pure _)

theorem moves_scan {size : BitVec 64} : ∀ (fuel : ℕ) (cur : Addr),
    Moves R (scan fuel size cur : HeapM σ (Option Addr)) := by
  intro fuel
  induction fuel with
  | zero =>
      intro _
      exact moves_none
  | succ fuel ih =>
      intro cur
      refine moves_takeSegment.bind fun found => ?_
      cases found with
      | some p => exact moves_pure _
      | none =>
          exact moves_load64.bind fun _ => Moves.ite (moves_pure _)
            (moves_load64.bind fun a => ih a)

end Headers

/-! ## Mappings -/

section Mappings

variable {source : FrameSource σ} {ptm : PageTableManager} [hR : HeapRel source ptm R]

include hR

theorem moves_mapPages : ∀ (n : ℕ) (pos : Addr),
    Moves R (mapPages source ptm n pos) := by
  intro n
  induction n with
  | zero =>
      intro _
      exact moves_pure _
  | succ n ih =>
      intro pos
      exact (hR.mapNewPage _).bind fun _ => ih (pos + 4096)

theorem moves_initHeap {a n : BitVec 64} : Moves R (initHeap source ptm a n) :=
  (moves_mapPages _ _).bind fun _ => moves_startList

theorem moves_growLoop : ∀ n : ℕ, Moves R (growLoop source ptm n) := by
  intro n
  induction n with
  | zero =>
      exact moves_pure _
  | succ n ih =>
      exact moves_get.bind fun _ => (hR.mapNewPage _).bind fun _ =>
      (moves_globals _ _ _).bind fun _ => ih

theorem moves_extendHeap {length : BitVec 64} : Moves R (extendHeap source ptm length) :=
  moves_get.bind fun _ => (moves_growLoop _).bind fun _ => moves_linkLast

theorem moves_malloc : ∀ (fuel : ℕ) (size : BitVec 64),
    Moves R (malloc source ptm fuel size) := by
  intro fuel
  induction fuel with
  | zero =>
      intro _
      exact moves_none
  | succ fuel ih =>
      intro size
      refine Moves.ite (moves_pure _)
        (moves_get.bind fun _ => (moves_scan _ _).bind fun found => ?_)
      cases found with
      | some p => exact moves_pure _
      | none => exact moves_extendHeap.bind fun _ => ih (roundUp size)

end Mappings

end HeapM

/-- **Every call moves** by a relation by which the mappings move. -/
theorem moves_heapCall {source : FrameSource σ} {ptm : PageTableManager}
    [hR : HeapRel source ptm R] (call : HeapCall) (fuel : ℕ) :
    Moves R (call.run source ptm fuel) := by
  cases call with
  | mapMem v p => exact hR.mapMem v p
  | initHeap a n => exact HeapM.moves_initHeap
  | extendHeap length => exact HeapM.moves_extendHeap
  | malloc size => exact (HeapM.moves_malloc fuel size).bind fun _ => moves_pure _

/-! ## The record of requests -/

/-- Between the two states the record of requests has only grown. -/
def Recorder (h h' : KernelHeap σ) : Prop := h.machine.requests <:+ h'.machine.requests

instance (source : FrameSource σ) (ptm : PageTableManager) :
    HeapRel source ptm (Recorder (σ := σ)) where
  refl h := List.suffix_refl h.machine.requests
  trans := fun _ _ _ => List.IsSuffix.trans
  quiet := fun h h' hsame => by
    rw [Recorder, hsame.requests]
  mapMem := by
    intro v p h w h' heq
    obtain ⟨s, hs, heq⟩ := Option.map_eq_some_iff.mp heq
    obtain ⟨-, rfl⟩ := Prod.mk.inj heq
    exact mapMem_suffix hs
  mapNewPage := by
    intro pos h w h' heq
    obtain ⟨-, s, hs, rfl⟩ := HeapM.mapNewPage_eq_some heq
    have hsuffix := mapMem_suffix hs
    rw [Machine.takeFrame_requests] at hsuffix
    exact (List.suffix_cons _ _).trans hsuffix

theorem mapPages_suffix {source : FrameSource σ} {ptm : PageTableManager} {n : ℕ} {pos : Addr}
    {h h' : KernelHeap σ} {u : Unit} (hrun : HeapM.mapPages source ptm n pos h = some (u, h')) :
    h.machine.requests <:+ h'.machine.requests := by
  have hmoves : Moves Recorder (HeapM.mapPages source ptm n pos) := HeapM.moves_mapPages n pos
  exact hmoves h u h' hrun

theorem growLoop_suffix {source : FrameSource σ} {ptm : PageTableManager} {n : ℕ}
    {h h' : KernelHeap σ} {u : Unit} (hrun : HeapM.growLoop source ptm n h = some (u, h')) :
    h.machine.requests <:+ h'.machine.requests := by
  have hmoves : Moves Recorder (HeapM.growLoop source ptm n) := HeapM.moves_growLoop n
  exact hmoves h u h' hrun

/-- The record of requests is the same. -/
def SameRequests (h h' : KernelHeap σ) : Prop := h'.machine.requests = h.machine.requests

instance : QuietRel (SameRequests (σ := σ)) where
  refl _ := rfl
  trans := fun _ _ _ h h' => Eq.trans h' h
  quiet := fun _ _ hsame => hsame.requests

end EtaOs
