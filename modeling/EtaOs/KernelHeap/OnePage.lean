import EtaOs.KernelHeap.Pages

/-!
# Stores through one page

A page that is present behind a marked frame can be written to, and what is written there
changes neither the tables nor the marks.  `init_heap` writes its first header through such
a page; where the page lies does not matter.

The lemmas ask for nothing but the one page, since they are also used where the heap lies in a
place in which it should not lie, and none of the invariants of the heap holds.

* `TablesKept`: the tables, the marks and the record are as before.
* `BackedPage`: a page that is present, with a frame that is held behind it.
* `BackedPage.store64`, `BackedPage.store8`: the stores.
* `returns_startList_page`: the first header.
-/

namespace EtaOs

open ByteMemory Fallible RadixTree

variable {memMap : List EfiMemoryDescriptor} {root v f : BitVec 64}

/-- The tables keep their bytes, the frames their marks, and the record its requests. -/
structure TablesKept (memMap : List EfiMemoryDescriptor) (root : BitVec 64) (s s' : Kernel) :
    Prop where
  same : ∀ t, Table s.mem root t → SameOn t 4096 s.mem s'.mem
  marked : ∀ k < reach memMap, s'.marked k = s.marked k
  requests : s'.requests = s.requests

namespace TablesKept

variable {s s₁ s₂ s₃ : Kernel}

theorem refl (s : Kernel) : TablesKept memMap root s s :=
  ⟨fun _ _ => SameOn.refl _ _ _, fun _ _ => rfl, rfl⟩

theorem trans (h : TablesKept memMap root s₁ s₂) (h' : TablesKept memMap root s₂ s₃) :
    TablesKept memMap root s₁ s₃ where
  same := fun t ht => (h.same t ht).trans (h'.same t ((table_congr h.same t).mpr ht))
  marked := fun k hk => (h'.marked k hk).trans (h.marked k hk)
  requests := h'.requests.trans h.requests

/-- The supply of frames is the same. -/
theorem supply {S : Finset (List (BitVec 9))} {L : ℕ → Prop} [DecidablePred L] {n : ℕ}
    (h : TablesKept memMap root s₁ s₂) (htables : TablesInv memMap root s₂)
    (hsupply : Supply memMap root S L n s₁) : Supply memMap root S L n s₂ :=
  hsupply.of_sameOn htables h.same h.marked

end TablesKept

/-- The page at `v` is present, and the frame behind it is held. -/
structure BackedPage (memMap : List EfiMemoryDescriptor) (root v f : BitVec 64) (s : Kernel) :
    Prop where
  page : IsFrame v
  tables : TablesInv memMap root s
  cr3 : s.cr3 = some root
  held : Held memMap root s.mem f s
  backs : walk s.mem root v = some f

namespace BackedPage

variable {s : Kernel} {x : BitVec 64} (hwf : WellFormedMap memMap) (hroot : IsFrame root)

theorem phys (h : BackedPage memMap root v f s) (hx : (x - v).toNat < 4096) :
    s.phys x = some (f + (x - v)) := phys_of_walk h.cr3 h.page h.backs hx

include hwf hroot

/-- Bytes written in the frame leave the page as it is. -/
theorem write (h : BackedPage memMap root v f s) {m' : Mem}
    (hmem : ∀ x, ¬ (x - f).toNat < 4096 → m' x = s.mem x) :
    BackedPage memMap root v f { s with mem := m' } ∧
      TablesKept memMap root s { s with mem := m' } := by
  obtain ⟨htables, hsame, hmark⟩ := h.held.write hwf hroot h.tables hmem
  exact ⟨⟨h.page, htables, h.cr3, h.held.of_sameOn hsame hmark,
    (walk_congr hsame v).trans h.backs⟩, hsame, hmark, rfl⟩

/-- **A store through the page.** -/
theorem store64 (h : BackedPage memMap root v f s) (hx : (x - v).toNat + 8 ≤ 4096)
    (w : BitVec 64) : ∃ s', s.store64 x w = some s' ∧ BackedPage memMap root v f s' ∧
      TablesKept memMap root s s' := by
  refine ⟨{ s with mem := ByteMemory.store64 s.mem (f + (x - v)) w }, ?_, h.write hwf hroot ?_⟩
  · rw [Machine.store64, h.phys (by omega), Option.map_some]
  · exact fun y hy => store64_outside hx hy w

theorem store8 (h : BackedPage memMap root v f s) (hx : (x - v).toNat + 1 ≤ 4096)
    (w : BitVec 8) : ∃ s', s.store8 x w = some s' ∧ BackedPage memMap root v f s' ∧
      TablesKept memMap root s s' := by
  refine ⟨{ s with mem := ByteMemory.store8 s.mem (f + (x - v)) w }, ?_, h.write hwf hroot ?_⟩
  · rw [Machine.store8, h.phys (by omega), Option.map_some]
  · exact fun y hy => store8_outside hx hy w

end BackedPage

/-! ## The first header -/

/-- What `init_heap` keeps from `s` on while it writes its first header in the page at `v`. -/
structure Starting (memMap : List EfiMemoryDescriptor) (root v f len : BitVec 64) (s : Kernel)
    (k : KernelHeap PageFrameAllocator) : Prop where
  page : BackedPage memMap root v f k.machine
  kept : TablesKept memMap root s k.machine
  heapStart : k.heapStart = v
  heapEnd : k.heapEnd = v + len

section FirstHeader

variable {len x : BitVec 64} {s : Kernel} {k : KernelHeap PageFrameAllocator}
  (hwf : WellFormedMap memMap) (hroot : IsFrame root)

include hwf hroot

theorem returns_store64_page (h : Starting memMap root v f len s k)
    (hx : (x - v).toNat + 8 ≤ 4096) (w : BitVec 64) :
    Returns (HeapM.store64 x w) k fun _ k' => Starting memMap root v f len s k' := by
  obtain ⟨s', hs', hpage, hkept⟩ := h.page.store64 hwf hroot hx w
  refine ⟨(), { k with machine := s' }, ?_, hpage, h.kept.trans hkept, h.heapStart, h.heapEnd⟩
  rw [HeapM.store64, hs']
  rfl

theorem returns_setFree_page (h : Starting memMap root v f len s k)
    (hx : (x + 24 - v).toNat + 1 ≤ 4096) (flag : Bool) :
    Returns (HeapM.setFree x flag) k fun _ k' => Starting memMap root v f len s k' := by
  obtain ⟨s', hs', hpage, hkept⟩ := h.page.store8 hwf hroot hx (if flag then 1 else 0)
  refine ⟨(), { k with machine := s' }, ?_, hpage, h.kept.trans hkept, h.heapStart, h.heapEnd⟩
  rw [HeapM.setFree, HeapM.store8, hs']
  rfl

/-- **The first header** is written through its page. -/
theorem returns_startList_page (h : BackedPage memMap root v f k.machine) :
    Returns (HeapM.startList v len) k fun _ k' =>
      Starting memMap root v f len k.machine k' := by
  refine Returns.bind (Q := fun _ k' => Starting memMap root v f len k.machine k')
    (returns_modify ⟨h, TablesKept.refl _, rfl, rfl⟩) ?_
  rintro _ k₁ hk₁
  refine (returns_store64_page hwf hroot hk₁ (by bv_omega) _).bind ?_
  rintro _ k₂ hk₂
  refine (returns_store64_page hwf hroot hk₂ (by bv_omega) _).bind ?_
  rintro _ k₃ hk₃
  refine (returns_store64_page hwf hroot hk₃ (by bv_omega) _).bind ?_
  rintro _ k₄ hk₄
  refine (returns_setFree_page hwf hroot hk₄ (by bv_omega) true).bind ?_
  rintro _ k₅ hk₅
  exact returns_modify ⟨hk₅.page, hk₅.kept, hk₅.heapStart, hk₅.heapEnd⟩

end FirstHeader

end EtaOs
