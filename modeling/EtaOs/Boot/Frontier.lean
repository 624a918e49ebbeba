import EtaOs.Boot.Reachable

/-!
# Where the tables of `prepare_mem` lie

`request_page` returns the lowest frame that is not marked.  On a machine whose frames from
1 MiB on are free the tables are therefore the frames from there up to the first that is not
marked, in the order in which they were requested.

This is more than a theorem about every memory map can say, and no general result uses it.  It
serves the counterexamples, which have to point at a table and therefore must know where one is.

* `Frontier`: the tables are the frames from 1 MiB up to frame `c`, and the frames of the
  first 2 MiB are marked up to `c`.
* `mapInv_frontier`: before paging `map_mem` keeps this, as long as frames of the first 2 MiB
  are left.
* `exists_frontier`: it holds behind `prepare_mem` of 16 MiB.
-/

namespace EtaOs

open ByteMemory IntLoop RadixTree

/-- The frames outside the second half of the first 2 MiB. -/
def OutsideWindow (k : ℕ) : Prop := k < 0x100 ∨ 0x200 ≤ k

instance : DecidablePred OutsideWindow := fun k =>
  inferInstanceAs (Decidable (k < 0x100 ∨ 0x200 ≤ k))

/-- Of the first 2 MiB the frames up to `c` are marked, and the tables are those of them from
1 MiB on. -/
structure Frontier (root : BitVec 64) (c : ℕ) (s : Kernel) : Prop where
  marked : ∀ k < 0x200, s.marked k = true ↔ k < c
  tables : ∀ f, Table s.mem root f ↔ IsFrame f ∧ 0x100 ≤ frameIndex f ∧ frameIndex f < c

variable {memMap : List EfiMemoryDescriptor} {root : BitVec 64} {S : Finset (List (BitVec 9))}
  {n c : ℕ} {s : Kernel}

/-- A frame is known by its index. -/
theorem IsFrame.eq_of_frameIndex_eq {f g : BitVec 64} (hf : IsFrame f) (hg : IsFrame g)
    (h : frameIndex f = frameIndex g) : f = g := by
  obtain ⟨hf1, -⟩ := hf
  obtain ⟨hg1, -⟩ := hg
  rw [frameIndex_eq, frameIndex_eq] at h
  exact BitVec.eq_of_toNat_eq (by omega)

/-- **A request returns the lowest frame that is not marked**, and marks it. -/
theorem requestPage_of_marks (hs : AllocInv memMap s) (hreach : 0x200 ≤ reach memMap)
    (hmark : ∀ k < 0x200, s.marked k = true ↔ k < c) (hc : c < 0x200) :
    frameIndex (requestPage s).1 = c ∧
      ∀ k < 0x200, (requestPage s).2.marked k = true ↔ k < c + 1 := by
  have hsize : reach memMap ≤ s.alloc.pageBitmap.size.toNat := by
    rw [hs.bitmap]
    exact Nat.min_le_left _ _
  have hfree : s.marked c = false := by
    rw [← Bool.not_eq_true, hmark c hc]
    exact lt_irrefl c
  have hindex : frameIndex (requestPage s).1 = c :=
    frameIndex_requestPage hs.hint (by omega) hfree fun k hk => (hmark k (by omega)).mpr hk
  refine ⟨hindex, fun k hk => ?_⟩
  have hleft : ∃ j < s.alloc.pageBitmap.size.toNat, s.marked j = false := ⟨c, by omega, hfree⟩
  rw [marked_requestPage hs.hint (hs.le_last (by omega)), hmark k hk, hindex, and_iff_right hleft]
  omega

namespace Frontier

/-- While frames are left, the frontier is among the first 2 MiB. -/
theorem lt (h : Frontier root c s) (hsupply : Supply memMap root S OutsideWindow n s) :
    c < 0x200 := by
  obtain ⟨P, hPS, -, hroom⟩ := hsupply.room
  have hcard := Finset.card_le_card hPS
  have hpos : 0 < (unmarked memMap OutsideWindow s).card := by omega
  obtain ⟨k, hk⟩ := Finset.card_pos.mp hpos
  obtain ⟨-, hfree, hwindow⟩ := mem_unmarked.mp hk
  rw [OutsideWindow, not_or, not_lt, not_le] at hwindow
  have hge : ¬ k < c := by
    rw [← h.marked k hwindow.2, hfree]
    exact Bool.false_ne_true
  omega

theorem root_lt (h : Frontier root c s) : 0x100 ≤ frameIndex root ∧ frameIndex root < c :=
  ((h.tables root).mp (isTable_root _ _ _)).2

/-- **Linking a table moves the frontier on.** -/
theorem linkTable (hwf : WellFormedMap memMap) (hreach : 0x200 ≤ reach memMap)
    (hroot : IsFrame root) (h : Frontier root c s)
    (hsupply : Supply memMap root S OutsideWindow n s) {pre : List (BitVec 9)} {t e : BitVec 64}
    {i : BitVec 9} (hdepth : pre.length < 3)
    (hlink : Link (edge s.mem) (edge (linkTable (s.takeFrame bootAllocator).2 t i
      (requestPage s).1 e).mem) 3 root pre t i (requestPage s).1) :
    Frontier root (c + 1) (EtaOs.linkTable (s.takeFrame bootAllocator).2 t i
      (requestPage s).1 e) := by
  have hgranted := hsupply.granted
  have halloc := hsupply.tables.alloc
  have hframe := (halloc.request_frame hgranted).1
  obtain ⟨hindex, hmarks⟩ := requestPage_of_marks halloc hreach h.marked (h.lt hsupply)
  obtain ⟨-, hmark⟩ := hsupply.tables.linkTable hwf hroot hgranted hdepth hlink
  refine ⟨fun k hk => ?_, fun f => ?_⟩
  · rw [hmark k (by omega)]
    exact hmarks k hk
  · refine ((hlink.isTable_iff hsupply.tables.separated).trans
      (or_congr (h.tables f) Iff.rfl)).trans ?_
    constructor
    · rintro (⟨hf, hge, hfc⟩ | ⟨-, rfl⟩)
      · exact ⟨hf, hge, by omega⟩
      · have hrootc := h.root_lt
        exact ⟨hframe, by omega, by omega⟩
    · rintro ⟨hf, hge, hfc⟩
      rcases Nat.lt_succ_iff_lt_or_eq.mp hfc with hfc | hfc
      · exact Or.inl ⟨hf, hge, hfc⟩
      · exact Or.inr ⟨hdepth, hf.eq_of_frameIndex_eq hframe (hfc.trans hindex.symm)⟩

/-- A change that keeps the marks and the tables of the first 2 MiB. -/
theorem congr {s' : Kernel} (h : Frontier root c s)
    (hmark : ∀ k < 0x200, s'.marked k = s.marked k)
    (htables : ∀ f, Table s'.mem root f ↔ Table s.mem root f) : Frontier root c s' := by
  refine ⟨fun k hk => ?_, fun f => (htables f).trans (h.tables f)⟩
  rw [hmark k hk]
  exact h.marked k hk

end Frontier

/-- **`map_mem` keeps the frontier**, along with any invariant under which frames of the first
2 MiB are left. -/
theorem mapInv_frontier {I : Kernel → Prop} {Allowed : BitVec 64 → BitVec 64 → Prop}
    (hwf : WellFormedMap memMap) (hreach : 0x200 ≤ reach memMap)
    (hM : MapInv bootAllocator root I (fun _ => True) Allowed)
    (hsupply : ∀ s, I s → Supply memMap root S OutsideWindow n s) :
    MapInv bootAllocator root (fun s => I s ∧ ∃ c, Frontier root c s) (fun _ => True)
      Allowed := by
  refine hM.and ?_ ?_
  · rintro s v p pre t i e hI ⟨c, hc⟩ - - - hdepth hlink
    exact ⟨c + 1, hc.linkTable hwf hreach hM.frame (hsupply s hI) hdepth hlink⟩
  · rintro s v p t e hI ⟨c, hc⟩ - hlink
    have htables := (hsupply s hI).tables
    obtain ⟨-, hmark⟩ := htables.linkPage hwf hM.frame rfl hlink
    refine ⟨c, hc.congr (fun k hk => hmark k (by omega)) fun f => ?_⟩
    refine (hlink.isTable_iff htables.separated).trans (or_iff_left fun h => ?_)
    exact absurd h.1 (by simp)

/-! ## Behind `prepare_mem` -/

/-- Before paging the frames of the first megabyte are marked, and those of the second are
not. -/
theorem marked_beforePaging (m : Mem) {k : ℕ} (hk : k < 0x200) :
    (beforePaging m (sixteenMegabytes 0)).marked k = true ↔ k < 0x100 := by
  have hbase : (0 : BitVec 64) = 0 ∨ (0 : BitVec 64) = 0x100000 := Or.inl rfl
  rcases Nat.lt_or_ge k 0x100 with hlow | hge
  · refine iff_of_true ?_ hlow
    have hlast : (initialBitmap (sixteenMegabytes 0).memMap).last = 4104 := by
      rw [initialBitmap_last, initialBitmap_sixteenMegabytes hbase]
      show 8 * 513 = 4104
      omega
    have hle : k ≤ (readEfiMemoryMap (bootKernel m) (sixteenMegabytes 0).memMap).last := by
      rw [Machine.last, readEfiMemoryMap_pageBitmap, hlast]
      omega
    refine (marked_forPages_takePage hle).mpr (Or.inl ((marked_readEfiMemoryMap ?_).mpr ?_))
    · omega
    · exact Or.inr (Or.inl hlow)
  · refine iff_of_false ?_ (by omega)
    rw [marked_sixteenMegabytes hbase m (Nat.zero_le _) hge hk]
    · exact Bool.false_ne_true
    · intro hbitmap
      have hframe := bitmapFrame_sixteenMegabytes hbase hbitmap
      have hzero : (0 : BitVec 64).toNat = 0 := rfl
      omega

/-- Locking the framebuffer marks no frame of the first 2 MiB. -/
theorem marked_lockFrameBuffer {s : Kernel} (hs : AllocInv (sixteenMegabytes 0).memMap s) {k : ℕ}
    (hk : k < 0x200) :
    (lockFrameBuffer (sixteenMegabytes 0) s).marked k = s.marked k := by
  have hbase : (0 : BitVec 64) = 0 ∨ (0 : BitVec 64) = 0x100000 := Or.inl rfl
  have hreach := reach_sixteenMegabytes hbase
  rw [Bool.eq_iff_iff]
  refine (marked_forPages_takePage (hs.le_last (by omega))).trans (or_iff_left fun hloop => ?_)
  have hge := loopFrames_sixteenMegabytes hloop
  omega

/-- With the cleared PML4 the frontier is behind the first frame that was free. -/
theorem frontier_clearedPml4 {m : Mem} {info : BootInfo} (hwf : WellFormedMap info.memMap)
    (hreach : 0x200 ≤ reach info.memMap)
    (hbefore : ∀ k < 0x200, (beforePaging m info).marked k = true ↔ k < 0x100)
    (hOk : Granted info.memMap (nextRequest bootAllocator (beforePaging m info))) :
    Frontier (pml4 m info) 0x101 (clearedPml4 m info) := by
  have halloc := allocInv_beforePaging m info
  have hframe : IsFrame (pml4 m info) := (halloc.request_frame hOk).1
  obtain ⟨hrequest, hmarks⟩ := requestPage_of_marks halloc hreach hbefore (by omega)
  have hindex : frameIndex (pml4 m info) = 0x100 := hrequest
  obtain ⟨-, hmark⟩ := alloc_clearedPml4 hwf hOk
  refine ⟨fun k hk => ?_, fun f => ?_⟩
  · rw [hmark k (by omega)]
    exact hmarks k hk
  · refine (isTable_of_root_empty (edge_clearedPml4 m info)).trans ?_
    constructor
    · rintro rfl
      exact ⟨hframe, by omega, by omega⟩
    · rintro ⟨hf, hge, hlt⟩
      exact hf.eq_of_frameIndex_eq hframe (by omega)

section SixteenMegabytes

variable {m : Mem}

theorem reach_sixteenMegabytes_ge : 0x200 ≤ reach (sixteenMegabytes 0).memMap := by
  have hbase : (0 : BitVec 64) = 0 ∨ (0 : BitVec 64) = 0x100000 := Or.inl rfl
  rw [reach_sixteenMegabytes hbase]
  omega

/-- The frames of the second megabyte suffice for the tables, and for pages of the heap. -/
theorem card_unmarked_beforePaging : 0x100 ≤ (unmarked (sixteenMegabytes 0).memMap OutsideWindow
    (beforePaging m (sixteenMegabytes 0))).card := by
  have hsub : Finset.Ico 0x100 0x200 ⊆ unmarked (sixteenMegabytes 0).memMap OutsideWindow
      (beforePaging m (sixteenMegabytes 0)) := by
    intro k hk
    obtain ⟨hge, hlt⟩ := Finset.mem_Ico.mp hk
    refine mem_unmarked.mpr ⟨lt_of_lt_of_le hlt reach_sixteenMegabytes_ge, ?_, ?_⟩
    · rw [← Bool.not_eq_true, marked_beforePaging m hlt]
      omega
    · unfold OutsideWindow
      omega
  have hcard := Finset.card_le_card hsub
  rwa [Nat.card_Ico] at hcard

/-- **The frontier behind `prepare_mem`** of 16 MiB from address `0` on. -/
theorem exists_frontier {s : Kernel} (hn : n ≤ 0x80)
    (hrun : prepareMem (bootKernel m) (sixteenMegabytes 0) = some s) :
    Supply (sixteenMegabytes 0).memMap (pml4 m (sixteenMegabytes 0)) lowPaths OutsideWindow n s ∧
      ∃ c, Frontier (pml4 m (sixteenMegabytes 0)) c s := by
  have hbase : (0 : BitVec 64) = 0 ∨ (0 : BitVec 64) = 0x100000 := Or.inl rfl
  have hwf := sixteenMegabytes_wellFormed hbase
  have hfb := frameBufInReach_sixteenMegabytes hbase
  have hreach := reach_sixteenMegabytes_ge
  have hroom : lowPaths.card + n + 1 < (unmarked (sixteenMegabytes 0).memMap OutsideWindow
      (beforePaging m (sixteenMegabytes 0))).card := by
    have hpaths := card_lowPaths
    have hcard := card_unmarked_beforePaging (m := m)
    omega
  obtain ⟨hsupply, hroot⟩ := supply_clearedPml4 hwf hroom
  have hM := mapInv_frontier (S := lowPaths) (n := n) hwf hreach
    (mapInv_supply (S := lowPaths) (L := OutsideWindow) (n := n) hwf (mapInv_boot hwf hroot))
    fun _ h => h.2
  have hlocked : ∀ k < reach (sixteenMegabytes 0).memMap,
      LoopFrames (sixteenMegabytes 0).baseAdress (frameBufPages (sixteenMegabytes 0)) k →
        OutsideWindow k := fun k _ hloop => Or.inr (by
    have hge := loopFrames_sixteenMegabytes hloop
    omega)
  obtain ⟨s₂, ⟨⟨-, hI⟩, c, hc⟩, rfl, -⟩ := prepareMem_run hM
    ⟨⟨⟨hsupply.tables, clearedPml4_cr3 m _⟩, hsupply⟩, 0x101, frontier_clearedPml4 hwf hreach
      (fun _ hk => marked_beforePaging m hk)
      (hsupply.tables.given _ (by rw [clearedPml4_requests]; exact List.mem_singleton_self _)).2⟩
    (fun s ⟨⟨⟨ht, hcr3⟩, hs⟩, c, hc⟩ => by
      have hsame := ht.sameOn_lockPages hwf hroot hfb
      refine ⟨⟨⟨⟨ht.lockPages hwf hroot hfb, (keeps_lockFrameBuffer _ s).cr3.trans hcr3⟩,
        hs.lockPages hwf hroot hfb hlocked⟩, c, ?_⟩, walk_congr hsame⟩
      exact hc.congr (fun k hk => marked_lockFrameBuffer ht.alloc hk) (table_congr hsame))
    (fun i hi => ⟨trivial, (pathsIn_sixteenMegabytes hbase).1 hi⟩)
    (fun i hi => ⟨trivial, (pathsIn_sixteenMegabytes hbase).2 hi⟩) hrun fun _ _ => trivial
  exact ⟨⟨hI.tables.congr_cr3 _, hI.room⟩, c, hc.congr (fun _ _ => rfl) fun _ => Iff.rfl⟩

end SixteenMegabytes

end EtaOs
