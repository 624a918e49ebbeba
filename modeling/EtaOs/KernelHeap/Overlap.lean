import EtaOs.Boot.Frontier
import EtaOs.KernelHeap.Backing

/-!
# A heap over the page tables

`init_heap` maps its pages wherever it is told to.  When the first page of the heap is a leaf
table, and the table holds the entry of its own page, then mapping that page turns the pointer
to the table away from it: `map_mem` stores the entries of the pages behind it in the new
frame, and they stay mapped to themselves.

* `Redirected`: the pointer to the table leads to another frame.
* `exists_redirected`: mapping the page of the table.
* `Redirected.exists_mapHeapPage`: mapping the next page, which changes no walk.
* `not_heapBacked_overTables`: the pages of such a heap are not backed as they should be.
-/

namespace EtaOs

open ByteMemory Fallible RadixTree Relation

/-- The table at the end of the path of its own page, `t`, is reached at the frame `f` through
the pointer `t`.  The other pages of memory are where they were. -/
structure Redirected (memMap : List EfiMemoryDescriptor) (root t f : BitVec 64) (s : Kernel) :
    Prop where
  page : BackedPage memMap root t f s
  leaf : descend (edge s.mem) root [tableIndex t 3, tableIndex t 2, tableIndex t 1] = some t
  identity : ∀ k < totalFrames memMap, pageAddress k ≠ t →
    walk s.mem root (pageAddress k) = some (pageAddress k)

variable {memMap : List EfiMemoryDescriptor} {root t f : BitVec 64} {s : Kernel}
  {S : Finset (List (BitVec 9))} {L : ℕ → Prop} [DecidablePred L] {n : ℕ}

section Mapping

variable (hwf : WellFormedMap memMap) (hpages : 1 ≤ totalFrames memMap)
  (hsize : (totalMem memMap).toNat ≤ 2 ^ 48) (hroot : IsFrame root)

include hwf hpages hsize hroot

/-- **Mapping the page of the table**, at the end of its path, to a frame that is held. -/
theorem exists_redirected (h : IdentityInv memMap root s)
    (hsupply : Supply memMap root S L n s) {m : Mem} (hheld : Held memMap root m f s)
    (hleaf : descend (edge s.mem) root [tableIndex t 3, tableIndex t 2, tableIndex t 1] = some t) :
    ∃ s₁, PageTableManager.mapMem globalAllocator ⟨root⟩ s t f = some s₁ ∧
      Redirected memMap root t f s₁ ∧ Supply memMap root S L n s₁ ∧
      ∀ u, Table s₁.mem root u ↔ Table s.mem root u := by
  have htable : Table s.mem root t := ⟨_, by simp, hleaf⟩
  have hpage := isFrame_of_table hroot htable
  have hentry : ∀ u i, Table s.mem root u → s.Direct (entryAddr u i) := by
    intro u i hu
    have hrange := entryAddr_range u i
    exact (mapInv_memory hwf hpages hsize hroot).direct s h u hu _ (by omega)
  obtain ⟨e, hset, hpresent, haddr⟩ := setPage_of_phys (hentry t (tableIndex t 0) htable) f
  have hmap : PageTableManager.mapMem globalAllocator ⟨root⟩ s t f =
      setPage s t ((tableIndex t 0).setWidth 64) f :=
    mapMem_of_present hleaf fun pre u i hlen hu => hentry u i ⟨pre, by omega, hu⟩
  have hlink := link_of_leaf (m := s.mem) (i := tableIndex t 0) hroot hleaf (by simp) hpresent haddr
  have hsep := h.tables.separated
  obtain ⟨htables, hmark⟩ := h.tables.linkPage hwf hroot rfl hlink
  have hheld' := hheld.linkPage hwf hroot h.tables rfl hlink
  have hwalk : ∀ w, walk (linkPage s t (tableIndex t 0) e).mem root w =
      if SamePage t w then some f else walk s.mem root w := by
    intro w
    rw [← hheld.frame.frameOf]
    exact walk_leaf hlink hsep w
  refine ⟨_, hmap.trans hset, ⟨⟨hpage, htables, h.cr3, ?_, ?_⟩, ?_, fun k hk hne => ?_⟩,
    hsupply.linkPage hwf hroot rfl hlink, fun u => ?_⟩
  · exact { hheld' with same := SameOn.refl _ _ _ }
  · exact (hwalk t).trans (if_pos rfl)
  · exact (hlink.descend_eq_of_leaf hsep rfl (by simp)).trans hleaf
  · have hnot : ¬ SamePage t (pageAddress k) := by
      have htlt := (h.tables.tables t htable).1
      have hreach := reach_le_totalFrames hpages
      have hpageAt := pageAddress_toNat (k := k) (by unfold totalFrames at hk; omega)
      obtain ⟨ht1, -⟩ := hpage
      rw [frameIndex_eq] at htlt
      unfold totalFrames at hk hreach
      rw [samePage_iff_of_lt (by omega) (by omega)]
      exact fun heq => hne (BitVec.eq_of_toNat_eq (by omega))
    exact (hwalk _).trans ((if_neg hnot).trans (h.identity k hk))
  · exact (hlink.isTable_iff hsep).trans (or_iff_left fun hlt => absurd hlt.1 (by simp))

omit hpages hsize in
theorem Redirected.takeFrame (h : Redirected memMap root t f s)
    (hOk : Granted memMap (nextRequest bootAllocator s)) :
    Redirected memMap root t f (s.takeFrame bootAllocator).2 := by
  have htables := h.page.tables
  have hsame := htables.sameOn_requestPage hwf hroot hOk
  have hheld := h.page.held.takeFrame hwf hroot htables hOk
  refine ⟨⟨h.page.page, htables.takeFrame hwf hroot hOk, ?_, ?_, ?_⟩, ?_, fun k hk hne => ?_⟩
  · exact (Machine.takeFrame_cr3 bootAllocator s).trans h.page.cr3
  · exact { hheld with same := SameOn.refl _ _ _ }
  · exact (walk_congr hsame t).trans h.page.backs
  · exact (descend_congr hsame _ (by simp)).trans h.leaf
  · exact (walk_congr hsame _).trans (h.identity k hk hne)

omit hpages hsize in
/-- A request finds the bitmap, of which the table holds no part. -/
theorem Redirected.bitmapDirect (hbelow : BitmapBelow memMap)
    (htotal : totalFrames memMap ≤ 2 ^ 36) (h : Redirected memMap root t f s) : BitmapDirect s := by
  have htable : Table s.mem root t := ⟨_, by simp, h.leaf⟩
  refine h.page.tables.bitmapDirect hwf hroot h.page.cr3 htotal fun index hindex => ?_
  have hlast := initialBitmap_last memMap
  have hbytes := initialBitmap_size memMap
  have hframe := hbelow.frameIndex_lt hindex
  have hpart := bitmapFrame_of_lt hwf (j := index.toNat / 8) (by omega) (by omega)
  have hbyte : BitVec.ofNat 64 (index.toNat / 8) = index / 8 :=
    BitVec.eq_of_toNat_eq (by simp; omega)
  rw [hbyte] at hpart
  obtain ⟨hpage, hin⟩ := mem_pageAddress
    (x := (initialBitmap memMap).buffer + index / 8) (by omega)
  refine direct_of_walk h.page.cr3 hpage (h.identity _ hframe ?_) hin
  rintro rfl
  refine (h.page.tables.tables _ htable).2.2 ?_
  rwa [frameIndex_pageAddress (by omega)]

omit hwf hsize in
/-- The tables above the leaf table are reached at their own address. -/
theorem Redirected.direct (h : Redirected memMap root t f s) {pre : List (BitVec 9)}
    {u : BitVec 64} (hpre : pre.length < 3) (hu : descend (edge s.mem) root pre = some u)
    (i : BitVec 9) : s.Direct (entryAddr u i) := by
  have hne : u ≠ t := by
    rintro rfl
    have heq := h.page.tables.separated _ _ _ (by omega) (by simp) hu h.leaf
    rw [heq] at hpre
    exact absurd hpre (by simp)
  have hframe := isFrame_of_descend hroot hu
  have hlt := (h.page.tables.tables u ⟨pre, by omega, hu⟩).1
  have hwalk := h.identity (frameIndex u) (lt_of_lt_of_le hlt (reach_le_totalFrames hpages))
  rw [pageAddress_frameIndex hframe] at hwalk
  have hrange := entryAddr_range u i
  exact direct_of_walk h.page.cr3 hframe (hwalk hne) (by omega)

omit hsize in
/-- **Mapping the next page** stores its entry in the frame behind the pointer, and changes no
walk. -/
theorem Redirected.exists_mapHeapPage (hbelow : BitmapBelow memMap)
    (htotal : totalFrames memMap ≤ 2 ^ 36) (h : Redirected memMap root t f s)
    (hOk : Granted memMap (nextRequest bootAllocator s)) {v : BitVec 64}
    (hv : ∀ level, 1 ≤ level → level ≤ 3 → tableIndex v level = tableIndex t level) :
    ∃ s₁, mapHeapPage ⟨root⟩ s v = some s₁ ∧ BackedPage memMap root t f s₁ ∧
      (∀ w, walk s₁.mem root w = walk s.mem root w) ∧
      ∀ u, Table s₁.mem root u ↔ Table s.mem root u := by
  have h' := h.takeFrame hwf hroot hOk
  have hsame := h.page.tables.sameOn_requestPage hwf hroot hOk
  have hrange := entryAddr_range t (tableIndex v 0)
  obtain ⟨e, hset, -⟩ :=
    setPage_of_phys (h'.page.phys (x := entryAddr t (tableIndex v 0)) (by omega))
    (requestPage s).1
  have hleaf := h'.leaf
  rw [← hv 3 (by omega) (by omega), ← hv 2 (by omega) (by omega),
    ← hv 1 (by omega) (by omega)] at hleaf
  have hmap : mapHeapPage ⟨root⟩ s v = setPage (s.takeFrame bootAllocator).2 t
      ((tableIndex v 0).setWidth 64) (requestPage s).1 := by
    rw [mapHeapPage, requestFrame_of_direct (h.bitmapDirect hwf hroot hbelow htotal)]
    exact mapMem_of_present hleaf fun pre u i hlen hu => h'.direct hpages hroot hlen hu i
  have hstore : ∀ y, ¬ (y - f).toNat < 4096 → ByteMemory.store64
      (s.takeFrame bootAllocator).2.mem (f + (entryAddr t (tableIndex v 0) - t)) e y =
        (s.takeFrame bootAllocator).2.mem y :=
    fun y hy => store64_outside (by bv_omega) hy e
  obtain ⟨hpage, hkept⟩ := h'.page.write hwf hroot hstore
  refine ⟨_, hmap.trans hset, hpage, fun w => ?_, fun u => ?_⟩
  · exact (walk_congr hkept.same w).trans (walk_congr hsame w)
  · exact (table_congr hkept.same u).trans (table_congr hsame u)

/-- **`init_heap` of two pages over a leaf table** returns, and leaves the second page mapped to
itself. -/
theorem exists_initHeap_overTable {k : KernelHeap PageFrameAllocator}
    (h : IdentityInv memMap root k.machine)
    (hsupply : Supply memMap root S L (n + 1) k.machine)
    (hleaf : descend (edge k.machine.mem) root
      [tableIndex t 3, tableIndex t 2, tableIndex t 1] = some t)
    (hnext : ∀ level, 1 ≤ level → level ≤ 3 → tableIndex (t + 4096) level = tableIndex t level)
    (hlt : frameIndex t + 1 < totalFrames memMap) :
    ∃ k', HeapM.initHeap globalAllocator ⟨root⟩ t 2 k = some ((), k') ∧
      k'.heapStart = t ∧ k'.heapEnd = t + 8192 ∧ TablesInv memMap root k'.machine ∧
      walk k'.machine.mem root t = some (requestPage k.machine).1 ∧
      walk k'.machine.mem root (t + 4096) = some (t + 4096) ∧
      ∀ u, Table k'.machine.mem root u ↔ Table k.machine.mem root u := by
  have hgranted := hsupply.granted
  have hsame := h.tables.sameOn_requestPage hwf hroot hgranted
  have hheld := Held.of_request hwf hroot h.tables hgranted
  have hleaf' := (descend_congr hsame _ (by simp)).trans hleaf
  obtain ⟨s₁, hmap₁, hred, hsupply₁, htable₁⟩ := exists_redirected hwf hpages hsize hroot
    (h.takeFrame hwf hroot hgranted) (hsupply.takeFrame hwf hroot) hheld hleaf'
  obtain ⟨s₂, hmap₂, hpage, hwalk₂, htable₂⟩ := hred.exists_mapHeapPage hwf hpages hroot
    h.bitmapBelow h.totalFrames_le hsupply₁.granted hnext
  have hmapNew : ∀ {k : KernelHeap PageFrameAllocator} {v : BitVec 64} {s' : Kernel},
      mapHeapPage ⟨root⟩ k.machine v = some s' →
      Returns (HeapM.mapNewPage globalAllocator ⟨root⟩ v) k fun _ k' => k'.machine = s' := by
    intro k v s' hmap
    obtain ⟨calls, hrun⟩ := mapNewPage_of_mapHeapPage hmap
    exact ⟨(), _, hrun, rfl⟩
  have hreturns : Returns (HeapM.initHeap globalAllocator ⟨root⟩ t 2) k fun _ k' =>
      Starting memMap root t (requestPage k.machine).1 (2 * 4096) s₂ k' := by
    refine Returns.bind (Q := fun _ k' => k'.machine = s₂) ?_ fun _ k₂ hk₂ => ?_
    · rw [← h.mapHeapPage_eq hwf hroot] at hmap₁
      refine (hmapNew hmap₁).bind fun _ k₁ hk₁ => ?_
      rw [← hk₁] at hmap₂
      exact (hmapNew hmap₂).bind fun _ k₂ hk₂ => returns_pure hk₂
    · rw [← hk₂] at hpage ⊢
      exact returns_startList_page hwf hroot hpage
  obtain ⟨_, k', hrun, hk'⟩ := hreturns
  refine ⟨k', hrun, hk'.heapStart, hk'.heapEnd, hk'.page.tables, hk'.page.backs, ?_, fun u => ?_⟩
  · rw [walk_congr hk'.kept.same, hwalk₂]
    have hframe := isFrame_of_table hroot ⟨_, by simp, hleaf⟩
    have hbound := totalFrames_lt memMap
    rw [frameIndex_eq] at hlt
    have hindex : pageAddress (frameIndex t + 1) = t + 4096 := by
      obtain ⟨h1, -⟩ := hframe
      apply BitVec.eq_of_toNat_eq
      rw [frameIndex_eq, pageAddress_toNat (by omega)]
      bv_omega
    have hid := hred.identity (frameIndex t + 1) (by rwa [frameIndex_eq])
    rw [hindex] at hid
    exact hid (by bv_omega)
  · exact ((table_congr hk'.kept.same u).trans (htable₂ u)).trans
      ((htable₁ u).trans (table_congr hsame u))

end Mapping

/-! ## On a machine of 16 MiB -/

/-- The first megabytes have their leaf entries in the tables of the first entries. -/
theorem tableIndex_low {v : BitVec 64} (hv : v.toNat < 2 ^ 21) :
    ∀ level, 1 ≤ level → level ≤ 3 → tableIndex v level = 0 := by
  intro level h1 h3
  have hcases : level = 1 ∨ level = 2 ∨ level = 3 := by omega
  apply BitVec.eq_of_toNat_eq
  rw [tableIndex_toNat]
  rcases hcases with rfl | rfl | rfl <;> (simp; omega)

/-- **A heap of two pages over the leaf table of the first 2 MiB.**  The second page is mapped
to itself, and lies over a table or in the frame behind the first page. -/
theorem exists_not_heapBacked {c : ℕ} {k : KernelHeap PageFrameAllocator}
    (hwf : WellFormedMap memMap) (hsize : (totalMem memMap).toNat ≤ 2 ^ 48)
    (hframes : 0x200 ≤ totalFrames memMap) (hreach : 0x200 ≤ reach memMap) (hroot : IsFrame root)
    (h : IdentityInv memMap root k.machine)
    (hsupply : Supply memMap root S OutsideWindow (n + 1) k.machine)
    (hc : Frontier root c k.machine) :
    ∃ t k', t.toNat % 4096 = 0 ∧ t.toNat < 2 ^ 21 ∧
      HeapM.initHeap globalAllocator ⟨root⟩ t 2 k = some ((), k') ∧
      (∀ r ∈ k'.machine.requests, r.frame ≠ 0) ∧ ¬ HeapBacked root k' := by
  have hclt := hc.lt hsupply
  -- the table with the entries of the first 2 MiB
  obtain ⟨t, hleaf⟩ : ∃ t, descend (edge k.machine.mem) root [0, 0, 0] = some t := by
    have hwalk := h.identity 0 (by omega)
    have hzero := tableIndex_low (v := pageAddress 0) (by decide)
    rw [walk, pathOf, hzero 3 (by omega) (by omega), hzero 2 (by omega) (by omega),
      hzero 1 (by omega) (by omega)] at hwalk
    have hsnoc := descend_snoc (edge k.machine.mem) root [0, 0, 0] (tableIndex (pageAddress 0) 0)
    obtain ⟨t, ht, -⟩ := Option.bind_eq_some_iff.mp (hsnoc.symm.trans hwalk)
    exact ⟨t, ht⟩
  obtain ⟨hframe, hge, htc⟩ := (hc.tables t).mp ⟨[0, 0, 0], by simp, hleaf⟩
  obtain ⟨haligned, -⟩ := hframe
  have hindex := frameIndex_eq t
  have hnextNat : (t + 4096).toNat = t.toNat + 4096 := by bv_omega
  have hlow := tableIndex_low (v := t) (by omega)
  have hlow' := tableIndex_low (v := t + 4096) (by omega)
  obtain ⟨k', hrun, hstart, hend, htables, hwalk, hwalk', htable⟩ := exists_initHeap_overTable hwf
    (by omega) hsize hroot h hsupply
    (by rw [hlow 3 (by omega) (by omega), hlow 2 (by omega) (by omega),
      hlow 1 (by omega) (by omega)]; exact hleaf)
    (fun level h1 h3 => (hlow' level h1 h3).trans (hlow level h1 h3).symm) (by omega)
  refine ⟨t, k', haligned, by omega, hrun, fun r hr => (htables.given r hr).2.1, fun hbacked => ?_⟩
  have hin : InHeap k' t := by
    rw [InHeap, hstart, hend]
    exact ⟨haligned, le_refl _, by bv_omega⟩
  have hin' : InHeap k' (t + 4096) := by
    rw [InHeap, hstart, hend]
    exact ⟨by omega, by omega, by bv_omega⟩
  have hnextFrame : IsFrame (t + 4096) := ⟨by omega, by omega⟩
  have hnextIndex : frameIndex (t + 4096) = frameIndex t + 1 := by
    rw [frameIndex_eq]
    omega
  rcases Nat.lt_or_ge (frameIndex t + 1) c with hlt | hge'
  · -- the second page lies over a table
    refine hbacked.notTable (t + 4096) (t + 4096) hin' hwalk' ((htable _).mpr ?_)
    exact (hc.tables _).mpr ⟨hnextFrame, by omega, by omega⟩
  · -- the second page is the frame that was requested for the first
    have hrequest := (requestPage_of_marks h.tables.alloc hreach hc.marked hclt).1
    have hnew := (h.tables.alloc.request_frame hsupply.granted).1
    have heq : (requestPage k.machine).1 = t + 4096 :=
      hnew.eq_of_frameIndex_eq hnextFrame (by omega)
    rw [heq] at hwalk
    have hsamePage := hbacked.distinct t (t + 4096) (t + 4096) hin hin' hwalk hwalk'
    bv_omega

/-- **A heap over the page tables is not backed**, on a machine of 16 MiB. -/
theorem not_heapBacked_overTables : ¬ ∀ (m : Mem) (info : BootInfo) (a pageCount : BitVec 64)
    (k₀ k₁ k : KernelHeap PageFrameAllocator), WellFormedMap info.memMap → FrameBufInReach info →
      (∀ x, Visited info.baseAdress (frameBufEnd info) x → x.toNat < 2 ^ 48) →
      a.toNat % 4096 = 0 → a.toNat + 4096 * pageCount.toNat ≤ 2 ^ 48 →
      prepareMem (bootKernel m) info = some k₀.machine →
      HeapM.initHeap globalAllocator ⟨pml4 m info⟩ a pageCount k₀ = some ((), k₁) →
      ReflTransGen (ExtendStep ⟨pml4 m info⟩) k₁ k → (∀ r ∈ k.machine.requests, r.frame ≠ 0) →
      HeapBacked (pml4 m info) k := by
  intro hclaim
  have hbase : (0 : BitVec 64) = 0 ∨ (0 : BitVec 64) = 0x100000 := Or.inl rfl
  have hwf := sixteenMegabytes_wellFormed hbase
  have hfb := frameBufInReach_sixteenMegabytes hbase
  have hsize : (totalMem (sixteenMegabytes 0).memMap).toNat ≤ 2 ^ 48 :=
    (totalMem_sixteenMegabytes_le hbase).trans (by decide)
  have hframe := @visited_sixteenMegabytes_lt 0
  obtain ⟨s, hprepare⟩ := prepareMem_sixteenMegabytes_isSome (fun _ => 0) 0
  obtain ⟨hsupply, c, hc⟩ := exists_frontier (n := 1) (by omega) hprepare
  obtain ⟨hpages, hroot, -, hid⟩ := identityInv_of_ne_zero hwf
    (bitmapBelow_sixteenMegabytes hbase) hfb hsize hframe hprepare
    fun r hr => (hsupply.tables.given r hr).2.1
  have hreach := reach_sixteenMegabytes hbase
  let k₀ : KernelHeap PageFrameAllocator := ⟨s, [], 0, 0, 0⟩
  obtain ⟨t, k', haligned, hlow, hinit, hnull, hnot⟩ := exists_not_heapBacked (k := k₀) (n := 0) hwf
    hsize (by rw [totalFrames_sixteenMegabytes hbase]; decide) (by omega) hroot hid hsupply hc
  have hcount : (2 : BitVec 64).toNat = 2 := rfl
  exact hnot (hclaim _ _ t 2 k₀ k' k' hwf hfb hframe haligned (by omega) hprepare hinit
    ReflTransGen.refl hnull)

end EtaOs
