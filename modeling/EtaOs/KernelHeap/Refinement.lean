import EtaOs.Heap.Merges
import EtaOs.Heap.Runs
import EtaOs.KernelHeap.View

/-!
# The heap on the machine refines the heap on virtual memory

`init_heap` and `extend_heap` on the machine do to the memory that the pages of the heap show
what they do to the virtual memory of `Heap`, for some contents of the frames they are given.
So what is proved of the list of segments there holds behind the page tables.

The contents of new frames are where the two models meet: `Heap` takes them from a sequence of
memories, and the machine has whatever the frames contained.  The refinement chooses the sequence
so that it is what the machine had.

* `Refines`: the pages of the heap show the memory of a `Heap`, and the globals agree.
* `returns_combineBackward`, `returns_linkLast`, `returns_startList`: the stores.
* `mapPages_pages`, `growLoop_refines`: the loops.
* `initHeap_refines`, `returns_extendHeap`, `extendHeap_refines`: the operations.
-/

namespace EtaOs

open ByteMemory Fallible RadixTree

/-- The pages of the heap on the machine show the memory of a heap on virtual memory, and the
globals are the same. -/
structure Refines (memMap : List EfiMemoryDescriptor) (root a : BitVec 64) (n : ℕ)
    (k : KernelHeap PageFrameAllocator) (h : Heap) : Prop where
  shown : Shown memMap root a n h.mem k.machine
  heapStart : k.heapStart = h.heapStart
  heapEnd : k.heapEnd = h.heapEnd
  lastHeader : k.lastHeader = h.lastHeader

variable {memMap : List EfiMemoryDescriptor} {root a x : BitVec 64} {n : ℕ}
  {k : KernelHeap PageFrameAllocator} {h : Heap}

section Stores

variable (hrange : HeapRange memMap a n) (hwf : WellFormedMap memMap) (hroot : IsFrame root)

include hrange

theorem returns_load64 (hk : Refines memMap root a n k h) (hx : OnPage a n x 8) :
    Returns (HeapM.load64 x) k fun w k' => w = load64 h.mem x ∧ k' = k := by
  refine ⟨load64 h.mem x, k, ?_, rfl, rfl⟩
  rw [HeapM.load64, hk.shown.load64 hrange hx]
  rfl

theorem returns_free (hk : Refines memMap root a n k h) (hx : OnPage a n x 32) :
    Returns (HeapM.free x) k fun w k' => w = HeapSegHeader.free h.mem x ∧ k' = k := by
  refine ⟨HeapSegHeader.free h.mem x, k, ?_, rfl, rfl⟩
  rw [HeapM.free, bind_apply, HeapM.load8, hk.shown.load8 hrange (hx.add (by decide))]
  rfl

include hwf hroot

theorem returns_store64 (hk : Refines memMap root a n k h) (hx : OnPage a n x 8) (w : BitVec 64) :
    Returns (HeapM.store64 x w) k fun _ k' =>
      Refines memMap root a n k' { h with mem := store64 h.mem x w } := by
  obtain ⟨s, hs, hshown⟩ := hk.shown.store64 hrange hwf hroot hx w
  refine ⟨(), { k with machine := s }, ?_, hshown, hk.heapStart, hk.heapEnd, hk.lastHeader⟩
  rw [HeapM.store64, hs]
  rfl

theorem returns_setFree (hk : Refines memMap root a n k h) (hx : OnPage a n x 32) (flag : Bool) :
    Returns (HeapM.setFree x flag) k fun _ k' =>
      Refines memMap root a n k' { h with mem := HeapSegHeader.setFree h.mem x flag } := by
  obtain ⟨s, hs, hshown⟩ := hk.shown.store8 hrange hwf hroot (hx.add (d := 24) (by decide))
    (if flag then 1 else 0)
  refine ⟨(), { k with machine := s }, ?_, hshown, hk.heapStart, hk.heapEnd, hk.lastHeader⟩
  rw [HeapM.setFree, HeapM.store8, hs]
  rfl

/-- **`combine_forward` into the last segment**, with both headers in the heap. -/
theorem returns_combineForward {this : Addr} (hk : Refines memMap root a n k h)
    (hthis : OnPage a n this 32) (hnext : OnPage a n (HeapSegHeader.next h.mem this) 32)
    (hlast : HeapSegHeader.next h.mem (HeapSegHeader.next h.mem this) = 0) :
    Returns (HeapM.combineForward this) k fun _ k' =>
      Refines memMap root a n k' (HeapSegHeader.combineForward this h) := by
  have hnextOf : ∀ {k' h'}, Refines memMap root a n k' h' → h'.mem = h.mem →
      Returns (HeapM.next this) k' fun w k'' => w = HeapSegHeader.next h.mem this ∧ k'' = k' := by
    intro k' h' hk' hmem
    rw [← hmem]
    exact returns_load64 hrange hk' (hthis.add (by decide))
  unfold HeapSegHeader.combineForward
  refine (hnextOf hk rfl).bind ?_
  rintro _ _ ⟨rfl, rfl⟩
  by_cases h0 : HeapSegHeader.next h.mem this = 0
  · rw [if_pos h0, if_pos h0]
    exact returns_pure hk
  rw [if_neg h0, if_neg h0]
  refine (hnextOf hk rfl).bind ?_
  rintro _ _ ⟨rfl, rfl⟩
  refine (returns_free hrange hk hnext).bind ?_
  rintro _ _ ⟨rfl, rfl⟩
  by_cases hfree : HeapSegHeader.free h.mem (HeapSegHeader.next h.mem this) = false
  · rw [if_pos hfree, if_pos hfree]
    exact returns_pure hk
  rw [if_neg hfree, if_neg hfree]
  refine (hnextOf hk rfl).bind ?_
  rintro _ _ ⟨rfl, rfl⟩
  -- the global moves when the last segment is swallowed
  let h₁ : Heap := { h with
    lastHeader := if HeapSegHeader.next h.mem this = h.lastHeader then this else h.lastHeader }
  refine Returns.bind (Q := fun _ k' => Refines memMap root a n k' h₁)
    (returns_modify ⟨hk.shown, hk.heapStart, hk.heapEnd, ?_⟩) ?_
  · rw [hk.lastHeader]
  rintro _ k₁ hk₁
  refine (hnextOf hk₁ rfl).bind ?_
  rintro _ _ ⟨rfl, rfl⟩
  refine (returns_load64 hrange hk₁ (hnext.add (by decide))).bind ?_
  rintro _ _ ⟨rfl, rfl⟩
  have hlast' : load64 h₁.mem (HeapSegHeader.next h.mem this + 8) = 0 := hlast
  rw [hlast', if_neg (not_not.mpr rfl), hlast, if_neg (not_not.mpr rfl)]
  refine Returns.bind (Q := fun _ k' => Refines memMap root a n k' h₁) (returns_pure hk₁) ?_
  rintro _ k₂ hk₂
  refine (returns_load64 hrange hk₂ (hthis.shorten (by decide))).bind ?_
  rintro _ _ ⟨rfl, rfl⟩
  refine (hnextOf hk₂ rfl).bind ?_
  rintro _ _ ⟨rfl, rfl⟩
  refine (returns_load64 hrange hk₂ (hnext.shorten (by decide))).bind ?_
  rintro _ _ ⟨rfl, rfl⟩
  exact returns_store64 hrange hwf hroot hk₂ (hthis.shorten (by decide)) _

/-- **`combine_backward` of the last segment**, with the header before it in the heap. -/
theorem returns_combineBackward {this : Addr} (hk : Refines memMap root a n k h)
    (hthis : OnPage a n this 32) (hbefore : OnPage a n (HeapSegHeader.last h.mem this) 32)
    (hnext : HeapSegHeader.next h.mem (HeapSegHeader.last h.mem this) = this)
    (hend : HeapSegHeader.next h.mem this = 0) :
    Returns (HeapM.combineBackward this) k fun _ k' =>
      Refines memMap root a n k' (HeapSegHeader.combineBackward this h) := by
  have hlastOf : Returns (HeapM.last this) k fun w k' =>
      w = HeapSegHeader.last h.mem this ∧ k' = k := returns_load64 hrange hk (hthis.add (by decide))
  unfold HeapSegHeader.combineBackward
  refine hlastOf.bind ?_
  rintro _ _ ⟨rfl, rfl⟩
  by_cases h0 : HeapSegHeader.last h.mem this = 0
  · refine Returns.of_ite_pos h0 ?_
    rw [if_neg fun hc => hc.1 h0]
    exact returns_pure hk
  refine Returns.of_ite_neg h0 (hlastOf.bind ?_)
  rintro _ _ ⟨rfl, rfl⟩
  refine (returns_free hrange hk hbefore).bind ?_
  rintro _ _ ⟨rfl, rfl⟩
  by_cases hfree : HeapSegHeader.free h.mem (HeapSegHeader.last h.mem this) = true
  · refine Returns.of_ite_pos hfree (hlastOf.bind ?_)
    rintro _ _ ⟨rfl, rfl⟩
    rw [if_pos ⟨h0, hfree⟩]
    refine returns_combineForward hrange hwf hroot hk hbefore ?_ ?_
    · rw [hnext]
      exact hthis
    · rw [hnext]
      exact hend
  · refine Returns.of_ite_neg hfree ?_
    rw [if_neg fun hc => hfree hc.2]
    exact returns_pure hk

/-- `init_heap` of the virtual heap behind its loop. -/
def startedList (heapAddr heapLength : BitVec 64) (h : Heap) : Heap :=
  let m := HeapSegHeader.setLength h.mem heapAddr (heapLength - 32)
  let m := HeapSegHeader.setNext m heapAddr 0
  let m := HeapSegHeader.setLast m heapAddr 0
  let m := HeapSegHeader.setFree m heapAddr true
  { h with
    mem := m
    heapStart := heapAddr
    heapEnd := heapAddr + heapLength
    lastHeader := heapAddr }

/-- **The first segment.** -/
theorem returns_startList (len : BitVec 64) (hshown : Shown memMap root a n h.mem k.machine)
    (hx : OnPage a n x 32) : Returns (HeapM.startList x len) k fun _ k' =>
      Refines memMap root a n k' (startedList x len h) := by
  let h₁ : Heap := { h with heapStart := x, heapEnd := x + len, lastHeader := k.lastHeader }
  refine Returns.bind (Q := fun _ k' => Refines memMap root a n k' h₁)
    (returns_modify ⟨hshown, rfl, rfl, rfl⟩) ?_
  rintro _ k₁ hk₁
  refine (returns_store64 hrange hwf hroot hk₁ (hx.shorten (by decide)) _).bind ?_
  rintro _ k₂ hk₂
  refine (returns_store64 hrange hwf hroot hk₂ (hx.add (d := 8) (by decide)) _).bind ?_
  rintro _ k₃ hk₃
  refine (returns_store64 hrange hwf hroot hk₃ (hx.add (d := 16) (by decide)) _).bind ?_
  rintro _ k₄ hk₄
  refine (returns_setFree hrange hwf hroot hk₄ hx true).bind ?_
  rintro _ k₅ hk₅
  exact returns_modify ⟨hk₅.shown, hk₅.heapStart, hk₅.heapEnd, rfl⟩

/-- **A segment behind the last one**, merged with it when it is free. -/
theorem returns_linkLast {b : Addr} (len : BitVec 64) (hk : Refines memMap root a n k h)
    (hb : OnPage a n b 32) (hz : OnPage a n h.lastHeader 32) (hapart : Apart h.lastHeader 32 b 32) :
    Returns (HeapM.linkLast b len) k fun _ k' =>
      Refines memMap root a n k' (HeapSegHeader.combineBackward b (linkedLast b len h)) := by
  have hlastOf : ∀ {k' h'}, Refines memMap root a n k' h' → h'.lastHeader = h.lastHeader →
      k'.lastHeader = h.lastHeader := fun hk' heq => hk'.lastHeader.trans heq
  refine (returns_setFree hrange hwf hroot hk hb true).bind ?_
  rintro _ k₁ hk₁
  refine Returns.get_bind ?_
  rw [hlastOf hk₁ rfl]
  refine (returns_store64 hrange hwf hroot hk₁ (hb.add (d := 16) (by decide)) _).bind ?_
  rintro _ k₂ hk₂
  refine Returns.get_bind ?_
  rw [hlastOf hk₂ rfl]
  refine (returns_store64 hrange hwf hroot hk₂ (hz.add (d := 8) (by decide)) _).bind ?_
  rintro _ k₃ hk₃
  refine Returns.bind (returns_modify (Q := fun _ k' => Refines memMap root a n k'
    { h with mem := _, lastHeader := b }) ⟨hk₃.shown, hk₃.heapStart, hk₃.heapEnd, rfl⟩) ?_
  rintro _ k₄ hk₄
  refine (returns_store64 hrange hwf hroot hk₄ (hb.add (d := 8) (by decide)) _).bind ?_
  rintro _ k₅ hk₅
  refine (returns_store64 hrange hwf hroot hk₅ (hb.shorten (by decide)) _).bind ?_
  rintro _ k₆ hk₆
  obtain ⟨hzhead, hbhead⟩ := header_linkedLast len hapart
  have hlast : HeapSegHeader.last (linkedLast b len h).mem b = h.lastHeader := by
    rw [last_eq, hbhead]
  refine returns_combineBackward hrange hwf hroot hk₆ hb ?_ ?_ ?_
  · rw [hlast]
    exact hz
  · rw [hlast, next_eq, hzhead]
  · rw [next_eq, hbhead]

end Stores

/-! ## The loops -/

/-- A page that is mapped and returned from. -/
theorem mapNewPage_eq_some {ptm : PageTableManager} {pos : Addr}
    {k k' : KernelHeap PageFrameAllocator} {u : Unit}
    (hrun : HeapM.mapNewPage globalAllocator ptm pos k = some (u, k')) :
    ∃ s, mapHeapPage ptm k.machine pos = some s ∧ k'.machine = s ∧ k'.heapStart = k.heapStart ∧
      k'.heapEnd = k.heapEnd ∧ k'.lastHeader = k.lastHeader := by
  obtain ⟨hreturns, s, hs, rfl⟩ := HeapM.mapNewPage_eq_some hrun
  refine ⟨s, ?_, rfl, rfl, rfl, rfl⟩
  rw [mapHeapPage, Machine.requestFrame_of_returns hreturns, Option.bind_some]
  exact hs

/-- A page that can be mapped is mapped by the heap, which puts the call on the record. -/
theorem mapNewPage_of_mapHeapPage {ptm : PageTableManager} {pos : Addr}
    {k : KernelHeap PageFrameAllocator} {s : Kernel}
    (hmap : mapHeapPage ptm k.machine pos = some s) :
    ∃ calls, HeapM.mapNewPage globalAllocator ptm pos k =
      some ((), { k with machine := s, mapCalls := calls }) := by
  obtain ⟨r, hr, hrun⟩ := Option.bind_eq_some_iff.mp hmap
  refine ⟨⟨r.2, pos, r.1⟩ :: k.mapCalls, bind_eq_some.mpr ⟨r.1, { k with machine := r.2 }, ?_, ?_⟩⟩
  · rw [HeapM.requestPage, hr]
    rfl
  · rw [HeapM.mapMem, hrun]
    rfl

theorem heapPage_succ (a : BitVec 64) (n : ℕ) : heapPage a n + 4096 = heapPage a (n + 1) := by
  rw [heapPage, heapPage, Nat.mul_succ, BitVec.ofNat_add, BitVec.add_assoc]
  rfl

theorem heapPage_add (a : BitVec 64) (n N : ℕ) :
    heapPage a (n + N) = heapPage a n + 4096 * BitVec.ofNat 64 N := by
  rw [heapPage, heapPage]
  bv_omega

/-- The pages of the heap from before are still there, with the same bytes. -/
def PagesKept (root a : BitVec 64) (n : ℕ) (s s' : Kernel) : Prop :=
  ∀ j < n, ∀ f, Backs root a s j f → Backs root a s' j f ∧ SameOn f 4096 s.mem s'.mem

theorem PagesKept.trans {s₁ s₂ s₃ : Kernel} {n' : ℕ} (h : PagesKept root a n s₁ s₂)
    (h' : PagesKept root a n' s₂ s₃) (hn : n ≤ n') : PagesKept root a n s₁ s₃ := by
  intro j hj f hf
  obtain ⟨hf₂, hsame⟩ := h j hj f hf
  obtain ⟨hf₃, hsame'⟩ := h' j (lt_of_lt_of_le hj hn) f hf₂
  exact ⟨hf₃, hsame.trans hsame'⟩

section Loops

variable (hwf : WellFormedMap memMap) (hpages : 1 ≤ totalFrames memMap)
  (hsize : (totalMem memMap).toNat ≤ 2 ^ 48) (hroot : IsFrame root)

include hwf hpages hsize hroot

/-- **The loop of `init_heap`** adds its pages to the heap. -/
theorem mapPages_pages : ∀ {count n : ℕ} {k k' : KernelHeap PageFrameAllocator} {u : Unit},
    HeapRange memMap a (n + count) → HeapPages memMap root a n k.machine →
    HeapM.mapPages globalAllocator ⟨root⟩ count (heapPage a n) k = some (u, k') →
    (∀ r ∈ k'.machine.requests, Granted memMap r) →
    HeapPages memMap root a (n + count) k'.machine ∧ PagesKept root a n k.machine k'.machine := by
  intro count
  induction count with
  | zero =>
      intro n k k' u _ hk hrun _
      obtain ⟨-, rfl⟩ := Prod.mk.inj (Option.some.inj hrun)
      exact ⟨hk, fun j _ f hf => ⟨hf, SameOn.refl _ _ _⟩⟩
  | succ count ih =>
      intro n k k' u hrange hk hrun hOk
      obtain ⟨_, k₁, h1, hrest⟩ := bind_eq_some.mp hrun
      have hgrow := mapPages_suffix hrest
      obtain ⟨s, hs, rfl, -⟩ := mapNewPage_eq_some h1
      obtain ⟨hk₁, hkept⟩ := hk.mapHeapPage hwf hpages hsize hroot (hrange.mono (by omega)) hs
        fun r hr => hOk r (hgrow.subset hr)
      rw [heapPage_succ] at hrest
      have hcount : n + 1 + count = n + (count + 1) := by omega
      obtain ⟨hk', hkept'⟩ := ih (hcount ▸ hrange) hk₁ hrest hOk
      exact ⟨hcount ▸ hk', PagesKept.trans hkept hkept' (Nat.le_succ n)⟩

/-- **The loop of `extend_heap`** does the same at the end of the heap, and moves it. -/
theorem growLoop_pages : ∀ {count n : ℕ} {k k' : KernelHeap PageFrameAllocator} {u : Unit},
    HeapRange memMap a (n + count) → HeapPages memMap root a n k.machine →
    k.heapEnd = heapPage a n → HeapM.growLoop globalAllocator ⟨root⟩ count k = some (u, k') →
    (∀ r ∈ k'.machine.requests, Granted memMap r) →
    HeapPages memMap root a (n + count) k'.machine ∧ PagesKept root a n k.machine k'.machine ∧
      k'.heapStart = k.heapStart ∧ k'.heapEnd = heapPage a (n + count) ∧
      k'.lastHeader = k.lastHeader := by
  intro count
  induction count with
  | zero =>
      intro n k k' u _ hk hend hrun _
      obtain ⟨-, rfl⟩ := Prod.mk.inj (Option.some.inj hrun)
      exact ⟨hk, fun j _ f hf => ⟨hf, SameOn.refl _ _ _⟩, rfl, hend, rfl⟩
  | succ count ih =>
      intro n k k' u hrange hk hend hrun hOk
      obtain ⟨_, _, hget, hrun⟩ := bind_eq_some.mp hrun
      obtain ⟨rfl, rfl⟩ := Prod.mk.inj (Option.some.inj hget)
      obtain ⟨_, k₁, h1, hrun⟩ := bind_eq_some.mp hrun
      obtain ⟨_, k₂, h2, hrest⟩ := bind_eq_some.mp hrun
      obtain ⟨-, rfl⟩ := Prod.mk.inj (Option.some.inj h2)
      have hgrow := growLoop_suffix hrest
      obtain ⟨s, hs, rfl, hstart₁, hend₁, hlast₁⟩ := mapNewPage_eq_some h1
      rw [hend] at hs
      obtain ⟨hk₁, hkept⟩ := hk.mapHeapPage hwf hpages hsize hroot (hrange.mono (by omega)) hs
        fun r hr => hOk r (hgrow.subset hr)
      have hcount : n + 1 + count = n + (count + 1) := by omega
      have hend₂ : k₁.heapEnd + 0x1000 = heapPage a (n + 1) := by
        rw [hend₁, hend, ← heapPage_succ]
      have hrange₁ : HeapRange memMap a (n + 1 + count) := hcount ▸ hrange
      obtain ⟨hk', hkept', hstart', hend', hlast'⟩ := ih
        (k := { k₁ with heapEnd := k₁.heapEnd + 0x1000 }) hrange₁ hk₁ hend₂ hrest hOk
      exact ⟨hcount ▸ hk', PagesKept.trans hkept hkept' (Nat.le_succ n), hstart'.trans hstart₁,
        hcount ▸ hend', hlast'.trans hlast₁⟩

end Loops

/-- The memories agree on the first `n` pages of the heap. -/
def AgreeOnPages (a : BitVec 64) (n : ℕ) (v m : Mem) : Prop :=
  ∀ j < n, ∀ i : BitVec 64, i.toNat < 4096 → m (heapPage a j + i) = v (heapPage a j + i)

/-- The loop on virtual memory, when the frames to come show what `v` shows. -/
theorem agreeOnPages_mapPages {v : Mem} : ∀ {count n : ℕ} {h : Heap},
    HeapRange memMap a (n + count) → h.fresh = (fun _ => v) → AgreeOnPages a n v h.mem →
    AgreeOnPages a (n + count) v (mapPages count (heapPage a n) h).mem := by
  intro count
  induction count with
  | zero =>
      intro _ _ _ _ hagree
      exact hagree
  | succ count ih =>
      intro n h hrange hfresh hagree
      have hcount : n + 1 + count = n + (count + 1) := by omega
      rw [mapPages, heapPage_succ, ← hcount]
      refine ih (hcount ▸ hrange) hfresh fun j hj i hi => ?_
      show (if _ then h.fresh h.taken _ else h.mem _) = _
      rw [hfresh]
      split
      next => rfl
      next hpage =>
        refine hagree j (Nat.lt_of_le_of_ne (Nat.le_of_lt_succ hj) ?_) i hi
        rintro rfl
        -- an address of the page that is mapped
        have hn := hrange.toNat_heapPage (j := j) (by omega)
        have haligned := hrange.aligned
        have hbelow := hrange.below
        refine hpage (page_eq_iff.mpr ?_)
        bv_omega

/-- Pages whose bytes are shown by a memory that agrees with them. -/
theorem shown_of_agree {s : Kernel} {v : Mem} (hrange : HeapRange memMap a n)
    (h : HeapPages memMap root a n s) (hagree : AgreeOnPages a n s.view v) :
    Shown memMap root a n v s := by
  refine ⟨h, fun j hj f hf i hi => ?_⟩
  rw [h.shows_view hrange j hj f hf i hi]
  exact (hagree j hj i hi).symm

/-! ## The operations -/

/-- The globals of a heap of `n` pages from `a` on. -/
structure HeapGlobals (a : BitVec 64) (n : ℕ) (h : Heap) : Prop where
  pos : 0 < n
  heapStart : h.heapStart = a
  heapEnd : h.heapEnd = heapPage a n
  lastHeader : OnPage a n h.lastHeader 32

theorem combineForward_lastHeader (this : Addr) (h : Heap) :
    (HeapSegHeader.combineForward this h).lastHeader = h.lastHeader ∨
      (HeapSegHeader.combineForward this h).lastHeader = this := by
  unfold HeapSegHeader.combineForward
  by_cases h0 : HeapSegHeader.next h.mem this = 0
  · exact Or.inl (by rw [if_pos h0])
  by_cases hfree : HeapSegHeader.free h.mem (HeapSegHeader.next h.mem this) = false
  · exact Or.inl (by rw [if_neg h0, if_pos hfree])
  rw [if_neg h0, if_neg hfree]
  exact (ite_eq_or_eq (HeapSegHeader.next h.mem this = h.lastHeader) this h.lastHeader).symm

theorem combineBackward_lastHeader (this : Addr) (h : Heap) :
    (HeapSegHeader.combineBackward this h).lastHeader = h.lastHeader ∨
      (HeapSegHeader.combineBackward this h).lastHeader = HeapSegHeader.last h.mem this := by
  unfold HeapSegHeader.combineBackward
  split
  next => exact combineForward_lastHeader _ h
  next => exact Or.inl rfl

/-- The first byte of a page, where the header of a segment is put. -/
theorem onPage_heapPage {j : ℕ} (hj : j < n) : OnPage a n (heapPage a j) 32 :=
  ⟨j, hj, 0, (BitVec.add_zero _).symm, by simp⟩

/-- A header in the first `n` pages is apart from one at the start of the next. -/
theorem apart_heapPage (hrange : HeapRange memMap a (n + 1)) {z : Addr} (hz : OnPage a n z 32) :
    Apart z 32 (heapPage a n) 32 := by
  obtain ⟨j, hj, i, rfl, hi⟩ := hz
  have hbelow := hrange.below
  have hjpage := hrange.toNat_heapPage (j := j) (by omega)
  have hnpage := hrange.toNat_heapPage (Nat.lt_succ_self n)
  refine apart_of_le (by decide) ?_ ?_ <;> bv_omega

section Operations

variable (hwf : WellFormedMap memMap) (hpages : 1 ≤ totalFrames memMap)
  (hsize : (totalMem memMap).toNat ≤ 2 ^ 48) (hroot : IsFrame root)

include hwf hpages hsize hroot

/-- **`init_heap` refines `init_heap`.**  When it returns and no request returned `NULL`, the
heap has its pages, and they show the first segment. -/
theorem initHeap_refines {pageCount : BitVec 64} {k' : KernelHeap PageFrameAllocator} {u : Unit}
    (hpos : 0 < pageCount.toNat) (hrange : HeapRange memMap a pageCount.toNat)
    (hk : IdentityInv memMap root k.machine)
    (hrun : HeapM.initHeap globalAllocator ⟨root⟩ a pageCount k = some (u, k'))
    (hOk : ∀ r ∈ k'.machine.requests, Granted memMap r) (h : Heap) :
    ∃ fresh, Refines memMap root a pageCount.toNat k'
        (initHeap a pageCount { h with fresh := fresh }) ∧
      HeapGlobals a pageCount.toNat (initHeap a pageCount { h with fresh := fresh }) := by
  obtain ⟨_, k₁, hloop, hlist⟩ := bind_eq_some.mp hrun
  have hrequests : k'.machine.requests = k₁.machine.requests := by
    have hmoves : Moves SameRequests
        (HeapM.startList (σ := PageFrameAllocator) a (pageCount * 4096)) :=
      HeapM.moves_startList
    exact hmoves k₁ u k' hlist
  have hzero : heapPage a 0 = a := BitVec.add_zero a
  have hrange₀ : HeapRange memMap a (0 + pageCount.toNat) := by rwa [Nat.zero_add]
  have hpages₁ : HeapPages memMap root a (0 + pageCount.toNat) k₁.machine :=
    (mapPages_pages hwf hpages hsize hroot hrange₀ (HeapPages.zero hk)
      (by rwa [hzero]) (by rwa [← hrequests])).1
  rw [Nat.zero_add] at hpages₁
  let h₀ : Heap := { h with fresh := fun _ => k₁.machine.view }
  have hagree : AgreeOnPages a (0 + pageCount.toNat) k₁.machine.view
      (mapPages pageCount.toNat (heapPage a 0) h₀).mem :=
    agreeOnPages_mapPages hrange₀ rfl fun j hj => absurd hj (Nat.not_lt_zero j)
  rw [Nat.zero_add, hzero] at hagree
  have hfirst : OnPage a pageCount.toNat a 32 := by
    have honPage := onPage_heapPage (a := a) hpos
    rwa [hzero] at honPage
  have hstart := returns_startList hrange hwf hroot (pageCount * 4096)
    (shown_of_agree hrange hpages₁ hagree) hfirst
  refine ⟨fun _ => k₁.machine.view, hstart.of_eq hlist, ⟨hpos, rfl, ?_, hfirst⟩⟩
  show a + pageCount * 4096 = heapPage a pageCount.toNat
  rw [heapPage]
  bv_omega

/-- **The loop of `extend_heap`** refines the loop on virtual memory, when the frames to come
show what the pages show behind the loop. -/
theorem growLoop_refines {N : ℕ} {k₁ : KernelHeap PageFrameAllocator} {u : Unit}
    (hrange : HeapRange memMap a (n + N)) (hk : Refines memMap root a n k h)
    (hstop : h.heapEnd = heapPage a n)
    (hrun : HeapM.growLoop globalAllocator ⟨root⟩ N k = some (u, k₁))
    (hOk : ∀ r ∈ k₁.machine.requests, Granted memMap r) :
    Refines memMap root a (n + N) k₁ (growLoop N { h with fresh := fun _ => k₁.machine.view }) := by
  obtain ⟨hpages₁, hkept, hstart₁, hend₁, hlast₁⟩ := growLoop_pages hwf hpages hsize hroot hrange
    hk.shown.pages (hk.heapEnd.trans hstop) hrun hOk
  let h₀ : Heap := { h with fresh := fun _ => k₁.machine.view }
  have hend₀ : h₀.heapEnd = heapPage a n := hstop
  -- the old pages show after the loop what they showed before it
  have hagree₀ : AgreeOnPages a n k₁.machine.view h₀.mem := by
    intro j hj i hi
    obtain ⟨f, hf⟩ := hk.shown.pages.present j hj
    obtain ⟨hf₁, hsame⟩ := hkept j hj f hf
    have hview := hpages₁.shows_view hrange j (by omega) f hf₁ i hi
    have hold := hk.shown.shows j hj f hf i hi
    rw [← hview, hsame _ (by bv_omega), hold]
  have hagree := agreeOnPages_mapPages (h := h₀) hrange rfl hagree₀
  obtain ⟨hgstart, hglast, -⟩ := growLoop_globals (h := h₀) (n := N) (by
    have hbelow := hrange.below
    rw [hend₀, hrange.toNat_heapPage_of_le (Nat.le_add_right n N)]
    omega)
  have hgrow : growLoop N h₀ = { mapPages N (heapPage a n) h₀ with
      heapEnd := heapPage a n + 4096 * BitVec.ofNat 64 N } := by
    rw [growLoop_eq, hend₀]
  refine ⟨shown_of_agree hrange hpages₁ ?_, ?_, ?_, ?_⟩
  · rw [hgrow]
    exact hagree
  · rw [hstart₁, hgstart, hk.heapStart]
  · rw [hend₁, hgrow]
    exact heapPage_add a n N
  · rw [hlast₁, hglast, hk.lastHeader]

/-- **`extend_heap` returns when its loop does**, and refines `extend_heap`. -/
theorem returns_extendHeap {len : BitVec 64} {k₁ : KernelHeap PageFrameAllocator} {u : Unit}
    (hlen : 0 < len.toNat) (hrange : HeapRange memMap a (n + pagesUp len.toNat / 4096))
    (hk : Refines memMap root a n k h) (hglobals : HeapGlobals a n h)
    (hloop : HeapM.growLoop globalAllocator ⟨root⟩ (pagesUp len.toNat / 4096) k = some (u, k₁))
    (hOk : ∀ r ∈ k₁.machine.requests, Granted memMap r) :
    Returns (HeapM.extendHeap globalAllocator ⟨root⟩ len) k fun _ k' =>
      Refines memMap root a (n + pagesUp len.toNat / 4096) k'
        (extendHeap len { h with fresh := fun _ => k₁.machine.view }) ∧
      HeapGlobals a (n + pagesUp len.toNat / 4096)
        (extendHeap len { h with fresh := fun _ => k₁.machine.view }) := by
  have hbelow := hrange.below
  have hfit : pagesUp len.toNat < 2 ^ 64 := by
    unfold pagesUp at hbelow ⊢
    omega
  have hcount := pageCount_toNat hfit
  have hNpos : 0 < pagesUp len.toNat / 4096 := by
    unfold pagesUp
    omega
  generalize pagesUp len.toNat / 4096 = N at hrange hbelow hcount hloop hNpos ⊢
  let h₀ : Heap := { h with fresh := fun _ => k₁.machine.view }
  have hend₀ : h₀.heapEnd = heapPage a n := hglobals.heapEnd
  have hrefines : Refines memMap root a (n + N) k₁ (growLoop N h₀) :=
    growLoop_refines hwf hpages hsize hroot hrange hk hglobals.heapEnd hloop hOk
  obtain ⟨hgstart, hglast, -⟩ := growLoop_globals (h := h₀) (n := N) (by
    rw [hend₀, hrange.toNat_heapPage_of_le (Nat.le_add_right n N)]
    omega)
  have hgend : (growLoop N h₀).heapEnd = heapPage a (n + N) := by
    rw [growLoop_eq, hend₀]
    exact (heapPage_add a n N).symm
  -- the new segment and the last one are whole headers in the heap
  have hz : OnPage a (n + N) (growLoop N h₀).lastHeader 32 := by
    rw [hglast]
    exact hglobals.lastHeader.mono (Nat.le_add_right n N)
  have hb : OnPage a (n + N) (heapPage a n) 32 := onPage_heapPage (by omega)
  have hapart : Apart (growLoop N h₀).lastHeader 32 (heapPage a n) 32 := by
    rw [hglast]
    exact apart_heapPage (hrange.mono (by omega)) hglobals.lastHeader
  have heq : extendHeap len h₀ = HeapSegHeader.combineBackward (heapPage a n)
      (linkedLast (heapPage a n) (pageRoundUp len) (growLoop N h₀)) := by
    rw [extendHeap_eq, hcount, hend₀]
  have hnew : HeapGlobals a (n + N) (extendHeap len h₀) := by
    rw [heq]
    have hbefore : HeapSegHeader.last (linkedLast (heapPage a n) (pageRoundUp len)
        (growLoop N h₀)).mem (heapPage a n) = (growLoop N h₀).lastHeader := by
      rw [last_eq, (header_linkedLast _ hapart).2]
    refine ⟨by omega, ?_, ?_, ?_⟩
    · rw [(combineBackward_sameHeap _ _).heapStart]
      exact hgstart.trans hglobals.heapStart
    · rw [(combineBackward_sameHeap _ _).heapEnd]
      exact hgend
    · rcases combineBackward_lastHeader (heapPage a n) (linkedLast (heapPage a n) (pageRoundUp len)
        (growLoop N h₀)) with hlast | hlast
      · rw [hlast]
        exact hb
      · rw [hlast, hbefore]
        exact hz
  have hend : k.heapEnd = heapPage a n := hk.heapEnd.trans hglobals.heapEnd
  unfold HeapM.extendHeap
  refine Returns.get_bind ?_
  refine Returns.bind (Q := fun _ k' => k' = k₁) ⟨u, k₁, by rw [hcount]; exact hloop, rfl⟩ ?_
  rintro _ _ rfl
  rw [hend]
  refine (returns_linkLast hrange hwf hroot (pageRoundUp len) hrefines hb hz hapart).mono ?_
  intro _ k' hk'
  refine ⟨?_, hnew⟩
  show Refines memMap root a (n + N) k' (extendHeap len h₀)
  rw [heq]
  exact hk'

/-- **`extend_heap` refines `extend_heap`.**  When it returns and no request returned `NULL`,
the heap has the new pages behind the old ones, and they show the new segment. -/
theorem extendHeap_refines {len : BitVec 64} {k k' : KernelHeap PageFrameAllocator} {u : Unit}
    {h : Heap} (hlen : 0 < len.toNat) (hrange : HeapRange memMap a (n + pagesUp len.toNat / 4096))
    (hk : Refines memMap root a n k h) (hglobals : HeapGlobals a n h)
    (hrun : HeapM.extendHeap globalAllocator ⟨root⟩ len k = some (u, k'))
    (hOk : ∀ r ∈ k'.machine.requests, Granted memMap r) :
    ∃ fresh, Refines memMap root a (n + pagesUp len.toNat / 4096) k'
        (extendHeap len { h with fresh := fresh }) ∧
      HeapGlobals a (n + pagesUp len.toNat / 4096) (extendHeap len { h with fresh := fresh }) := by
  have hbelow := hrange.below
  have hfit : pagesUp len.toNat < 2 ^ 64 := by
    unfold pagesUp at hbelow ⊢
    omega
  obtain ⟨_, _, hget, hparts⟩ := bind_eq_some.mp hrun
  obtain ⟨rfl, rfl⟩ := Prod.mk.inj (Option.some.inj hget)
  obtain ⟨_, k₁, hloop, hlink⟩ := bind_eq_some.mp hparts
  rw [pageCount_toNat hfit] at hloop
  have hmoves : Moves SameRequests
      (HeapM.linkLast (σ := PageFrameAllocator) k.heapEnd (pageRoundUp len)) :=
    HeapM.moves_linkLast
  have hrequests : k'.machine.requests = k₁.machine.requests := hmoves k₁ u k' hlink
  have hreturns := returns_extendHeap hwf hpages hsize hroot hlen hrange hk hglobals hloop
    (by rwa [← hrequests])
  exact ⟨_, hreturns.of_eq hrun⟩

end Operations

end EtaOs
