import EtaOs.Machine

/-!
# `map_mem`

`paging/page_table_manager.cpp`.  The source writes the descent through the three
upper levels out level by level; the three blocks are the same code on another table
and another index, `enterTable` here.

Tables are reached through pointers, so every load and store goes through the paging
of the machine: `map_mem` edits the tables through the mapping they make up.

A call can therefore end in a page fault, in a table that it has made itself a moment before, and
the definitions return an option.  The first lemmas are about what holds of every call whatever the
pointers denote, such as that requests are only added to the record; what a call is for is said in
`Paging/TableTree.lean`, under an invariant that makes the pointers denote the tables.
-/

namespace EtaOs

open ByteMemory RadixTree

variable {σ : Type}

/-- `PageTableManager`. -/
structure PageTableManager where
  pml4Addr : BitVec 64

/-- One upper level of `map_mem`: the table that entry `index` of `table` points to.  When
the entry is not present, a frame is requested, cleared, and linked. -/
def enterTable (source : FrameSource σ) (s : Machine σ) (table index : BitVec 64) :
    Option (BitVec 64 × Machine σ) :=
  (s.load64 (table + 8 * index)).bind fun value =>
    let pde : PageDirEntry := ⟨value⟩
    if !pde.getFlag .present then
      (s.requestFrame source).bind fun r =>
        (memset r.2 r.1 0 4096).bind fun s =>
          let pde := pde.setAddress (r.1 >>> 12)
          let pde := pde.setFlag .present true
          let pde := pde.setFlag .readWrite true
          (s.store64 (table + 8 * index) pde.value).map fun s => (r.1, s)
    else some (pde.getAddress <<< 12, s)

/-- The last level of `map_mem`: entry `index` of `table` pointed at a page. -/
def setPage (s : Machine σ) (table index physMem : BitVec 64) : Option (Machine σ) :=
  (s.load64 (table + 8 * index)).bind fun value =>
    let pde : PageDirEntry := ⟨value⟩
    let pde := pde.setAddress (physMem >>> 12)
    let pde := pde.setFlag .present true
    let pde := pde.setFlag .readWrite true
    s.store64 (table + 8 * index) pde.value

/-- `PageTableManager::map_mem`. -/
def PageTableManager.mapMem (source : FrameSource σ) (ptm : PageTableManager) (s : Machine σ)
    (virtMem physMem : BitVec 64) : Option (Machine σ) :=
  let indexer := PageMapIndexer.ofAddr virtMem
  (enterTable source s ptm.pml4Addr indexer.pdpI).bind fun pdp =>
    (enterTable source pdp.2 pdp.1 indexer.pdI).bind fun pd =>
      (enterTable source pd.2 pd.1 indexer.ptI).bind fun pt =>
        setPage pt.2 pt.1 indexer.pI physMem

/-! ## The four indices -/

/-- Nine bits of an address as a table index. -/
theorem shift_and_eq_tableIndex (v : BitVec 64) (level : ℕ) :
    v >>> (12 + 9 * level) &&& 0x1ff = (tableIndex v level).setWidth 64 := by
  apply BitVec.eq_of_toNat_eq
  rw [BitVec.toNat_and, BitVec.toNat_ushiftRight, BitVec.toNat_setWidth, tableIndex,
    BitVec.extractLsb'_toNat, show (0x1ff : BitVec 64).toNat = 2 ^ 9 - 1 by rfl,
    Nat.and_two_pow_sub_one_eq_mod]
  omega

theorem pdpI_ofAddr (v : BitVec 64) :
    (PageMapIndexer.ofAddr v).pdpI = (tableIndex v 3).setWidth 64 := by
  rw [← shift_and_eq_tableIndex]
  simp only [PageMapIndexer.ofAddr, ← BitVec.shiftRight_add]

theorem pdI_ofAddr (v : BitVec 64) :
    (PageMapIndexer.ofAddr v).pdI = (tableIndex v 2).setWidth 64 := by
  rw [← shift_and_eq_tableIndex]
  simp only [PageMapIndexer.ofAddr, ← BitVec.shiftRight_add]

theorem ptI_ofAddr (v : BitVec 64) :
    (PageMapIndexer.ofAddr v).ptI = (tableIndex v 1).setWidth 64 := by
  rw [← shift_and_eq_tableIndex]
  simp only [PageMapIndexer.ofAddr, ← BitVec.shiftRight_add]

theorem pI_ofAddr (v : BitVec 64) :
    (PageMapIndexer.ofAddr v).pI = (tableIndex v 0).setWidth 64 := by
  rw [← shift_and_eq_tableIndex]
  rfl

/-- **The path of an address is fixed by bits 12 to 47.** -/
theorem pathOf_eq_iff {v w : BitVec 64} : pathOf v = pathOf w ↔ SamePage v w := by
  have hlevel : ∀ u : BitVec 64, ∀ level < 4,
      (tableIndex u level).toNat = (u.extractLsb' 12 36).toNat / 2 ^ (9 * level) % 2 ^ 9 := by
    intro u level hlevel
    have hcases : level = 0 ∨ level = 1 ∨ level = 2 ∨ level = 3 := by omega
    rw [tableIndex, BitVec.extractLsb'_toNat, BitVec.extractLsb'_toNat, Nat.shiftRight_eq_div_pow,
      Nat.shiftRight_eq_div_pow]
    rcases hcases with rfl | rfl | rfl | rfl <;> omega
  constructor
  · intro h
    simp only [pathOf, List.cons.injEq, and_true] at h
    obtain ⟨h3, h2, h1, h0⟩ := h
    have e3 := congrArg BitVec.toNat h3
    have e2 := congrArg BitVec.toNat h2
    have e1 := congrArg BitVec.toNat h1
    have e0 := congrArg BitVec.toNat h0
    have hv := (v.extractLsb' 12 36).isLt
    have hw := (w.extractLsb' 12 36).isLt
    rw [hlevel v 3 (by decide), hlevel w 3 (by decide)] at e3
    rw [hlevel v 2 (by decide), hlevel w 2 (by decide)] at e2
    rw [hlevel v 1 (by decide), hlevel w 1 (by decide)] at e1
    rw [hlevel v 0 (by decide), hlevel w 0 (by decide)] at e0
    apply BitVec.eq_of_toNat_eq
    omega
  · intro h
    have hindex : ∀ level < 4, tableIndex v level = tableIndex w level := by
      intro level hl
      apply BitVec.eq_of_toNat_eq
      rw [hlevel v level hl, hlevel w level hl, h]
    rw [pathOf, pathOf, hindex 3 (by decide), hindex 2 (by decide), hindex 1 (by decide),
      hindex 0 (by decide)]

/-! ## The record of requests -/

theorem Machine.store64_requests {s s' : Machine σ} {a v : BitVec 64}
    (h : s.store64 a v = some s') :
    s'.requests = s.requests ∧ s'.cr3 = s.cr3 ∧ s'.alloc = s.alloc := by
  rw [Machine.store64, Option.map_eq_some_iff] at h
  obtain ⟨p, -, rfl⟩ := h
  exact ⟨rfl, rfl, rfl⟩

theorem memsetLoop_requests {a : BitVec 64} {v : BitVec 8} : ∀ {n : ℕ} {s s' : Machine σ},
    memsetLoop a v n s = some s' →
      s'.requests = s.requests ∧ s'.cr3 = s.cr3 ∧ s'.alloc = s.alloc := by
  intro n
  induction n with
  | zero =>
      intro s s' h
      obtain rfl := Option.some.inj h
      exact ⟨rfl, rfl, rfl⟩
  | succ n ih =>
      intro s s' h
      rw [memsetLoop, Option.bind_eq_some_iff] at h
      obtain ⟨t, ht, hs'⟩ := h
      rw [Machine.store8, Option.map_eq_some_iff] at hs'
      obtain ⟨p, -, rfl⟩ := hs'
      obtain ⟨hr, hc, ha⟩ := ih ht
      exact ⟨hr, hc, ha⟩

/-- What one level does to the record: nothing when the entry is present, and one call of
`request_page` when it is not. -/
theorem enterTable_requests {source : FrameSource σ} {s s' : Machine σ} {t i u : BitVec 64}
    (h : enterTable source s t i = some (u, s')) :
    s'.cr3 = s.cr3 ∧
      ((s' = s ∧ ∃ e, s.load64 (t + 8 * i) = some e ∧ e.getLsbD 0 = true) ∨
        s'.requests = ⟨s.mem, (source.request s).1, (source.request s).2.mem⟩ :: s.requests ∧
          s'.alloc = (source.request s).2.alloc) := by
  rw [enterTable, Option.bind_eq_some_iff] at h
  obtain ⟨value, hvalue, h⟩ := h
  dsimp only at h
  rw [getFlag_present] at h
  split at h
  next =>
    rw [Option.bind_eq_some_iff] at h
    obtain ⟨r, hr, h⟩ := h
    obtain rfl := Machine.requestFrame_eq_some hr
    rw [Option.bind_eq_some_iff] at h
    obtain ⟨s₁, hmemset, h⟩ := h
    rw [Option.map_eq_some_iff] at h
    obtain ⟨s₂, hstore, heq⟩ := h
    obtain ⟨-, rfl⟩ := Prod.mk.inj heq
    obtain ⟨hr₁, hc₁, ha₁⟩ := memsetLoop_requests hmemset
    obtain ⟨hr₂, hc₂, ha₂⟩ := Machine.store64_requests hstore
    refine ⟨by rw [hc₂, hc₁, Machine.takeFrame_cr3], Or.inr ⟨?_, ?_⟩⟩
    · rw [hr₂, hr₁, Machine.takeFrame_requests]
    · rw [ha₂, ha₁, Machine.takeFrame_alloc]
  next hbit =>
    obtain ⟨-, rfl⟩ := Prod.mk.inj (Option.some.inj h)
    exact ⟨rfl, Or.inl ⟨rfl, value, hvalue, by simpa using hbit⟩⟩

theorem enterTable_suffix {source : FrameSource σ} {s s' : Machine σ} {t i u : BitVec 64}
    (h : enterTable source s t i = some (u, s')) : s.requests <:+ s'.requests := by
  obtain ⟨-, ⟨rfl, -⟩ | ⟨h, -⟩⟩ := enterTable_requests h
  · exact List.suffix_refl _
  · rw [h]
    exact List.suffix_cons _ _

theorem setPage_requests {s s' : Machine σ} {t i p : BitVec 64} (h : setPage s t i p = some s') :
    s'.requests = s.requests ∧ s'.cr3 = s.cr3 ∧ s'.alloc = s.alloc := by
  rw [setPage, Option.bind_eq_some_iff] at h
  obtain ⟨value, -, h⟩ := h
  exact Machine.store64_requests h

/-- A call of `map_mem` only adds to the record. -/
theorem mapMem_suffix {source : FrameSource σ} {ptm : PageTableManager} {s s' : Machine σ}
    {v p : BitVec 64} (h : ptm.mapMem source s v p = some s') : s.requests <:+ s'.requests := by
  simp only [PageTableManager.mapMem, Option.bind_eq_some_iff] at h
  obtain ⟨pdp, h1, pd, h2, pt, h3, h4⟩ := h
  rw [(setPage_requests h4).1]
  exact ((enterTable_suffix h1).trans (enterTable_suffix h2)).trans (enterTable_suffix h3)

theorem mapMem_cr3 {source : FrameSource σ} {ptm : PageTableManager} {s s' : Machine σ}
    {v p : BitVec 64} (h : ptm.mapMem source s v p = some s') : s'.cr3 = s.cr3 := by
  simp only [PageTableManager.mapMem, Option.bind_eq_some_iff] at h
  obtain ⟨pdp, h1, pd, h2, pt, h3, h4⟩ := h
  rw [(setPage_requests h4).2.1, (enterTable_requests h3).1, (enterTable_requests h2).1,
    (enterTable_requests h1).1]

/-- What requests keep of the allocator's state `map_mem` keeps, and what holds of every
frame requested in such a state holds of every frame on the record. -/
theorem mapMem_record {source : FrameSource σ} {P : σ → Prop} {R : BitVec 64 → Prop}
    (hreq : ∀ s : Machine σ, P s.alloc →
      P (source.request s).2.alloc ∧ R (source.request s).1)
    {ptm : PageTableManager} {s s' : Machine σ} {v p : BitVec 64}
    (h : ptm.mapMem source s v p = some s') (hP : P s.alloc) (hR : ∀ r ∈ s.requests, R r.frame) :
    P s'.alloc ∧ ∀ r ∈ s'.requests, R r.frame := by
  have hlevel : ∀ {s s' : Machine σ} {t i u : BitVec 64},
      enterTable source s t i = some (u, s') → (P s.alloc ∧ ∀ r ∈ s.requests, R r.frame) →
        P s'.alloc ∧ ∀ r ∈ s'.requests, R r.frame := by
    intro s s' t i u henter hs
    obtain ⟨-, ⟨rfl, -⟩ | ⟨hrequests, halloc⟩⟩ := enterTable_requests henter
    · exact hs
    · obtain ⟨hP', hR'⟩ := hreq s hs.1
      refine ⟨halloc ▸ hP', fun r hr => ?_⟩
      rw [hrequests] at hr
      rcases List.mem_cons.mp hr with rfl | hr
      · exact hR'
      · exact hs.2 r hr
  simp only [PageTableManager.mapMem, Option.bind_eq_some_iff] at h
  obtain ⟨pdp, h1, pd, h2, pt, h3, h4⟩ := h
  obtain ⟨hrequests, -, halloc⟩ := setPage_requests h4
  rw [hrequests, halloc]
  exact hlevel h3 (hlevel h2 (hlevel h1 ⟨hP, hR⟩))

/-! ## Before paging no access faults -/

theorem memsetLoop_isSome {a : BitVec 64} {v : BitVec 8} : ∀ {n : ℕ} {s : Machine σ},
    s.cr3 = none → ∃ s', memsetLoop a v n s = some s' := by
  intro n
  induction n with
  | zero =>
      intro s _
      exact ⟨s, rfl⟩
  | succ n ih =>
      intro s h
      obtain ⟨t, ht⟩ := ih h
      have hcr3 : t.cr3 = none := (memsetLoop_requests ht).2.1.trans h
      rw [memsetLoop, ht, Option.bind_some, (Machine.direct_of_cr3_none hcr3 _).store8]
      exact ⟨_, rfl⟩

theorem enterTable_isSome (source : FrameSource σ) {s : Machine σ} (h : s.cr3 = none)
    (t i : BitVec 64) : ∃ r, enterTable source s t i = some r := by
  rw [enterTable, (Machine.direct_of_cr3_none h _).load64, Option.bind_some]
  dsimp only
  split
  · obtain ⟨s₁, hs₁⟩ := memsetLoop_isSome (a := (s.takeFrame source).1) (v := 0)
      (n := (4096 : BitVec 64).toNat) (s := (s.takeFrame source).2) (by simpa using h)
    have hcr3 : s₁.cr3 = none := by
      rw [(memsetLoop_requests hs₁).2.1, Machine.takeFrame_cr3, h]
    rw [Machine.requestFrame_of_returns (source.noFault s h), Option.bind_some, memset, hs₁,
      Option.bind_some, (Machine.direct_of_cr3_none hcr3 _).store64, Option.map_some]
    exact ⟨_, rfl⟩
  · exact ⟨_, rfl⟩

/-- **Without paging `map_mem` returns.** -/
theorem mapMem_isSome (source : FrameSource σ) {s : Machine σ} (h : s.cr3 = none)
    (ptm : PageTableManager) (v p : BitVec 64) : ∃ s', ptm.mapMem source s v p = some s' := by
  obtain ⟨⟨pdp, s₁⟩, h1⟩ := enterTable_isSome source h ptm.pml4Addr
    (PageMapIndexer.ofAddr v).pdpI
  have hc₁ := (enterTable_requests h1).1.trans h
  obtain ⟨⟨pd, s₂⟩, h2⟩ := enterTable_isSome source hc₁ pdp
    (PageMapIndexer.ofAddr v).pdI
  have hc₂ := (enterTable_requests h2).1.trans hc₁
  obtain ⟨⟨pt, s₃⟩, h3⟩ := enterTable_isSome source hc₂ pd
    (PageMapIndexer.ofAddr v).ptI
  have hc₃ := (enterTable_requests h3).1.trans hc₂
  simp only [PageTableManager.mapMem, h1, h2, h3, Option.bind_some]
  rw [setPage, (Machine.direct_of_cr3_none hc₃ _).load64, Option.bind_some,
    (Machine.direct_of_cr3_none hc₃ _).store64]
  exact ⟨_, rfl⟩

end EtaOs
