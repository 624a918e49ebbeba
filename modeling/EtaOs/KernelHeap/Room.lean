import EtaOs.KernelHeap.OnePage
import EtaOs.KernelHeap.Refinement

/-!
# The heap grows while frames are left

While the unmarked frames outnumber the pages to be mapped and the tables that may be needed
for them, `init_heap` and `extend_heap` return: no access of `map_mem` to a table faults, and
the headers are written through pages that are present.

Elsewhere it is assumed that a call has returned.  Here it is shown that it does, so that the runs
which the other results are about exist; how many frames are enough is a matter of counting paths.

* `returns_mapNewPage`: one page.
* `returns_mapPages`, `returns_growLoop`: the loops.
* `returns_initHeap`, `returns_extendHeap_of_supply`: the operations.
-/

namespace EtaOs

open ByteMemory Fallible RadixTree

variable {memMap : List EfiMemoryDescriptor} {root a : BitVec 64}
  {S : Finset (List (BitVec 9))} {L : ℕ → Prop} [DecidablePred L] {n N : ℕ}
  {k : KernelHeap PageFrameAllocator} {h : Heap}

section Loops

variable (hwf : WellFormedMap memMap) (hpages : 1 ≤ totalFrames memMap)
  (hsize : (totalMem memMap).toNat ≤ 2 ^ 48) (hroot : IsFrame root)

include hwf hpages hsize hroot

/-- **A page can be mapped** behind the last one while a frame is left for it.  The other pages
walk as before. -/
theorem returns_mapNewPage (hrange : HeapRange memMap a (n + 1))
    (hk : HeapPages memMap root a n k.machine) (hsupply : Supply memMap root S L (N + 1) k.machine)
    (hpath : PathsIn S (heapPage a n)) :
    Returns (HeapM.mapNewPage globalAllocator ⟨root⟩ (heapPage a n)) k fun _ k' =>
      HeapPages memMap root a (n + 1) k'.machine ∧ Supply memMap root S L N k'.machine ∧
        k'.heapEnd = k.heapEnd ∧ ∀ w, ¬ SamePage (heapPage a n) w →
          walk k'.machine.mem root w = walk k.machine.mem root w := by
  have hbelow := hrange.below
  have habove := hrange.above
  have hpage := hrange.toNat_heapPage (Nat.lt_succ_self n)
  obtain ⟨t, hmap, hid, hsupply', hwalk⟩ :=
    exists_mapHeapPage hwf hpages hsize hroot hk.identity hsupply (by omega) (by omega) hpath
  have hgranted : ∀ r ∈ t.requests, Granted memMap r := fun r hr => (hid.tables.given r hr).2
  obtain ⟨calls, hrun⟩ := mapNewPage_of_mapHeapPage hmap
  refine ⟨(), _, hrun, ?_, hsupply', rfl, fun w hw => (hwalk w).trans (if_neg hw)⟩
  exact (hk.mapHeapPage hwf hpages hsize hroot hrange hmap hgranted).1

/-- **The loop of `init_heap`** returns. -/
theorem returns_mapPages : ∀ {count n : ℕ} {k : KernelHeap PageFrameAllocator},
    HeapRange memMap a (n + count) → HeapPages memMap root a n k.machine →
    Supply memMap root S L (N + count) k.machine →
    (∀ j < n + count, PathsIn S (heapPage a j)) →
    Returns (HeapM.mapPages globalAllocator ⟨root⟩ count (heapPage a n)) k fun _ k' =>
      HeapPages memMap root a (n + count) k'.machine ∧ Supply memMap root S L N k'.machine ∧
        ∀ w, (∀ j < n + count, ¬ SamePage (heapPage a j) w) →
          walk k'.machine.mem root w = walk k.machine.mem root w := by
  intro count
  induction count with
  | zero =>
      intro n k _ hk hsupply _
      exact returns_pure ⟨hk, hsupply, fun _ _ => rfl⟩
  | succ count ih =>
      intro n k hrange hk hsupply hpath
      have hcount : n + 1 + count = n + (count + 1) := by omega
      refine (returns_mapNewPage hwf hpages hsize hroot (hrange.mono (by omega)) hk
        (N := N + count) hsupply (hpath n (by omega))).bind ?_
      rintro _ k₁ ⟨hk₁, hsupply₁, -, hwalk₁⟩
      rw [heapPage_succ, ← hcount]
      refine (ih (hcount ▸ hrange) hk₁ hsupply₁ (hcount ▸ hpath)).mono ?_
      rintro _ k₂ ⟨hk₂, hsupply₂, hwalk₂⟩
      exact ⟨hk₂, hsupply₂, fun w hw => (hwalk₂ w hw).trans (hwalk₁ w (hw n (by omega)))⟩

/-- **The loop of `extend_heap`** returns. -/
theorem returns_growLoop : ∀ {count n : ℕ} {k : KernelHeap PageFrameAllocator},
    HeapRange memMap a (n + count) → HeapPages memMap root a n k.machine →
    Supply memMap root S L (N + count) k.machine → k.heapEnd = heapPage a n →
    (∀ j < n + count, PathsIn S (heapPage a j)) →
    Returns (HeapM.growLoop globalAllocator ⟨root⟩ count) k fun _ k' =>
      Supply memMap root S L N k'.machine := by
  intro count
  induction count with
  | zero =>
      intro n k _ _ hsupply _ _
      exact returns_pure hsupply
  | succ count ih =>
      intro n k hrange hk hsupply hend hpath
      have hcount : n + 1 + count = n + (count + 1) := by omega
      refine Returns.get_bind ?_
      rw [hend]
      refine (returns_mapNewPage hwf hpages hsize hroot (hrange.mono (by omega)) hk
        (N := N + count) hsupply (hpath n (by omega))).bind ?_
      rintro _ k₁ ⟨hk₁, hsupply₁, hend₁, -⟩
      refine Returns.bind (Q := fun _ k' => k' = { k₁ with heapEnd := k₁.heapEnd + 0x1000 })
        (returns_modify rfl) ?_
      rintro _ _ rfl
      refine ih (n := n + 1) (hcount ▸ hrange) hk₁ hsupply₁ ?_ (hcount ▸ hpath)
      show k₁.heapEnd + 0x1000 = heapPage a (n + 1)
      rw [hend₁, hend, ← heapPage_succ]

/-- **`init_heap` returns** while frames are left for its pages.  What is mapped elsewhere stays. -/
theorem returns_initHeap {pageCount : BitVec 64} (hpos : 0 < pageCount.toNat)
    (hrange : HeapRange memMap a pageCount.toNat) (hk : IdentityInv memMap root k.machine)
    (hsupply : Supply memMap root S L (N + pageCount.toNat) k.machine)
    (hpath : ∀ j < pageCount.toNat, PathsIn S (heapPage a j)) :
    Returns (HeapM.initHeap globalAllocator ⟨root⟩ a pageCount) k fun _ k' =>
      Supply memMap root S L N k'.machine ∧ k'.machine.cr3 = some root ∧
        ∀ w, (∀ j < pageCount.toNat, ¬ SamePage (heapPage a j) w) →
          walk k'.machine.mem root w = walk k.machine.mem root w := by
  have hzero : heapPage a 0 = a := BitVec.add_zero a
  have hrange₀ : HeapRange memMap a (0 + pageCount.toNat) := by rwa [Nat.zero_add]
  have hloop := returns_mapPages hwf hpages hsize hroot hrange₀ (HeapPages.zero hk) hsupply
    (by rwa [Nat.zero_add])
  rw [hzero, Nat.zero_add] at hloop
  refine hloop.bind ?_
  rintro _ k₁ ⟨hk₁, hsupply₁, hwalk₁⟩
  obtain ⟨f, hf⟩ := hk₁.present 0 hpos
  have hback := hf
  rw [Backs, hzero] at hback
  have hbelow := hrange.below
  have hpage : BackedPage memMap root a f k₁.machine :=
    ⟨⟨hrange.aligned, by omega⟩, hk₁.identity.tables, hk₁.identity.cr3, hk₁.held 0 hpos f hf, hback⟩
  refine (returns_startList_page hwf hroot hpage).mono ?_
  intro _ k₂ hk₂
  exact ⟨hk₂.kept.supply hk₂.page.tables hsupply₁, hk₂.page.cr3,
    fun w hw => (walk_congr hk₂.kept.same w).trans (hwalk₁ w hw)⟩

/-- **`extend_heap` returns** while frames are left for its pages. -/
theorem returns_extendHeap_of_supply {len : BitVec 64} (hlen : 0 < len.toNat)
    (hrange : HeapRange memMap a (n + pagesUp len.toNat / 4096))
    (hk : Refines memMap root a n k h) (hglobals : HeapGlobals a n h)
    (hsupply : Supply memMap root S L (N + pagesUp len.toNat / 4096) k.machine)
    (hpath : ∀ j < n + pagesUp len.toNat / 4096, PathsIn S (heapPage a j)) :
    ∃ k', HeapM.extendHeap globalAllocator ⟨root⟩ len k = some ((), k') ∧
      ∀ r ∈ k'.machine.requests, Granted memMap r := by
  obtain ⟨u, k₁, hloop, hsupply₁⟩ := returns_growLoop hwf hpages hsize hroot hrange hk.shown.pages
    hsupply (hk.heapEnd.trans hglobals.heapEnd) hpath
  have hgranted : ∀ r ∈ k₁.machine.requests, Granted memMap r :=
    fun r hr => (hsupply₁.tables.given r hr).2
  obtain ⟨_, k', hrun, hrefines, -⟩ := returns_extendHeap hwf hpages hsize hroot hlen hrange hk
    hglobals hloop hgranted
  exact ⟨k', hrun, fun r hr => (hrefines.shown.pages.identity.tables.given r hr).2⟩

end Loops

end EtaOs
