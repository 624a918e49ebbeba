import EtaOs.Paging.TableTree

/-!
# Page tables refine a finite map

From a cleared PML4 any sequence of `map_mem` calls builds a tree whose walk is the
finite map of the calls: an address walks to the page of the last call for its page, and
is not present when there was none.  The tables of the tree are the PML4 and the frames
that were requested, each in one place.

The map is the statement of what page tables are for, with no table in it.  The refinement holds
for every source of frames that hands out fresh ones, so that it says nothing about the bitmap, and
for any addresses, also those that are the same in the bits that the walk reads.

* `lastMapped`: the abstract map.
* `FreshTable`: what is assumed of a request, that its frame is not a table already.
* `TreeInv`: the tables are the PML4 and the requested frames, all different.
* `mapCalls_refines`: the refinement.
-/

namespace EtaOs

open ByteMemory RadixTree

variable {σ : Type}

/-- Calls of `map_mem` one after another. -/
def mapCalls (source : FrameSource σ) (ptm : PageTableManager) (s : Machine σ) :
    List (BitVec 64 × BitVec 64) → Option (Machine σ)
  | [] => some s
  | (v, p) :: calls =>
      (ptm.mapMem source s v p).bind fun s => mapCalls source ptm s calls

theorem mapCalls_suffix {source : FrameSource σ} {ptm : PageTableManager}
    {calls : List (BitVec 64 × BitVec 64)} {s s' : Machine σ}
    (h : mapCalls source ptm s calls = some s') : s.requests <:+ s'.requests := by
  induction calls generalizing s with
  | nil =>
      obtain rfl := Option.some.inj h
      exact List.suffix_refl _
  | cons c calls ih =>
      rw [mapCalls, Option.bind_eq_some_iff] at h
      obtain ⟨s₁, h1, hrest⟩ := h
      exact (mapMem_suffix h1).trans (ih hrest)

theorem mapCalls_cr3 {source : FrameSource σ} {ptm : PageTableManager}
    {calls : List (BitVec 64 × BitVec 64)} {s s' : Machine σ}
    (h : mapCalls source ptm s calls = some s') : s'.cr3 = s.cr3 := by
  induction calls generalizing s with
  | nil =>
      obtain rfl := Option.some.inj h
      rfl
  | cons c calls ih =>
      rw [mapCalls, Option.bind_eq_some_iff] at h
      obtain ⟨s₁, h1, hrest⟩ := h
      exact (ih hrest).trans (mapMem_cr3 h1)

/-- The page given by the last call whose virtual address is in the page of `w`. -/
def lastMapped (calls : List (BitVec 64 × BitVec 64)) (w : BitVec 64) : Option (BitVec 64) :=
  (calls.reverse.find? fun c => SamePage c.1 w).map Prod.snd

theorem lastMapped_cons (v p : BitVec 64) (calls : List (BitVec 64 × BitVec 64)) (w : BitVec 64) :
    lastMapped ((v, p) :: calls) w =
      (lastMapped calls w).or (if SamePage v w then some p else none) := by
  rw [lastMapped, lastMapped, List.reverse_cons, List.find?_append, Option.map_or]
  congr 1
  by_cases h : SamePage v w <;> simp [h]

/-- A request that gives a frame which is not a table of the tree, and leaves the tables
alone. -/
structure FreshTable (root : BitVec 64) (r : Request) : Prop where
  ne_zero : r.frame ≠ 0
  frame : IsFrame r.frame
  new : ¬ Table r.before root r.frame
  same : ∀ t, Table r.before root t → SameOn t 4096 r.before r.after

/-- The tables of the tree are the root and the requested frames, and they are all
different. -/
structure TreeInv (root : BitVec 64) (s : Machine σ) : Prop where
  cr3 : s.cr3 = none
  separated : Separated (edge s.mem) 3 root
  tables : ∀ t, Table s.mem root t ↔ t = root ∨ t ∈ s.requests.map Request.frame
  nodup : (root :: s.requests.map Request.frame).Nodup

namespace TreeInv

variable {source : FrameSource σ} {root : BitVec 64} {s : Machine σ}

/-- A cleared root is a tree with no tables below it. -/
theorem init (hcr3 : s.cr3 = none) (hrequests : s.requests = [])
    (hzero : ∀ i, edge s.mem root i = none) : TreeInv root s where
  cr3 := hcr3
  separated := separated_of_root_empty hzero
  tables := by
    intro t
    rw [hrequests, List.map_nil, or_iff_left List.not_mem_nil]
    exact isTable_of_root_empty hzero
  nodup := by
    rw [hrequests]
    exact List.nodup_singleton root

/-- **Linking a table** keeps the invariant. -/
theorem table (h : TreeInv root s) (hOk : FreshTable root (nextRequest source s))
    {pre : List (BitVec 9)} {t e : BitVec 64} {i : BitVec 9}
    (hlink : Link (edge s.mem)
      (edge (linkTable (s.takeFrame source).2 t i (source.request s).1 e).mem) 3 root pre t i
      (source.request s).1) (hdepth : pre.length < 3) :
    TreeInv root (linkTable (s.takeFrame source).2 t i (source.request s).1 e) := by
  have hrequests : (linkTable (s.takeFrame source).2 t i (source.request s).1 e).requests.map
      Request.frame = (source.request s).1 :: s.requests.map Request.frame := by
    rw [linkTable, Machine.takeFrame_requests]
    rfl
  refine ⟨?_, hlink.separated h.separated fun _ => hOk.new, fun u => ?_, ?_⟩
  · rw [linkTable, Machine.takeFrame_cr3, h.cr3]
  · refine (hlink.isTable_iff h.separated).trans ((or_congr (h.tables u) Iff.rfl).trans ?_)
    rw [hrequests, List.mem_cons]
    simp only [hdepth, true_and]
    exact ⟨fun hu => hu.elim (fun hu => hu.imp_right Or.inr) fun hu => Or.inr (Or.inl hu),
      fun hu => hu.elim (fun hu => Or.inl (Or.inl hu))
        fun hu => hu.elim Or.inr fun hu => Or.inl (Or.inr hu)⟩
  · rw [hrequests]
    have hnew : (source.request s).1 ∉ root :: s.requests.map Request.frame := fun hmem =>
      hOk.new ((h.tables _).mpr (List.mem_cons.mp hmem))
    rw [List.mem_cons, not_or] at hnew
    obtain ⟨hroot, hnodup⟩ := List.nodup_cons.mp h.nodup
    refine List.nodup_cons.mpr ⟨?_, List.nodup_cons.mpr ⟨hnew.2, hnodup⟩⟩
    rw [List.mem_cons, not_or]
    exact ⟨Ne.symm hnew.1, hroot⟩

/-- **Linking a page** keeps the invariant. -/
theorem page (h : TreeInv root s) {pre : List (BitVec 9)} {t e f : BitVec 64} {i : BitVec 9}
    (hlink : Link (edge s.mem) (edge (linkPage s t i e).mem) 3 root pre t i f)
    (hdepth : pre.length = 3) : TreeInv root (linkPage s t i e) := by
  refine ⟨h.cr3, hlink.separated h.separated fun hlt => by omega, fun u => ?_, h.nodup⟩
  have hno : ¬ (pre.length < 3 ∧ u = f) := fun hlt => by omega
  exact ((hlink.isTable_iff h.separated).trans (or_iff_left hno)).trans (h.tables u)

theorem fresh (h : TreeInv root s) (hOk : FreshTable root (nextRequest source s)) :
    FreshFrame source root s where
  returns := source.noFault s h.cr3
  frame := hOk.frame
  new := hOk.new
  same := hOk.same
  direct := fun x _ =>
    Machine.direct_of_cr3_none ((Machine.takeFrame_cr3 source s).trans h.cr3) x

end TreeInv

/-- The tree invariant is kept by `map_mem` on fresh requests. -/
theorem mapInv_treeInv (source : FrameSource σ) {root : BitVec 64} (hroot : IsFrame root) :
    MapInv source root (TreeInv root) (FreshTable root) fun _ p => IsFrame p where
  frame := hroot
  cr3 := by
    intro s h r hr
    rw [h.cr3] at hr
    exact absurd hr.symm (Option.some_ne_none r)
  separated := fun _ h => h.separated
  direct := fun _ h _ _ x _ => Machine.direct_of_cr3_none h.cr3 x
  fresh := fun _ h hOk => h.fresh hOk
  table := fun _ _ _ _ _ _ _ h hOk _ _ hdepth hlink => h.table hOk hlink hdepth
  page := fun _ _ _ _ _ h _ hlink => h.page hlink rfl

/-- Calls of `map_mem` keep the invariant, and the walk is that of the last call. -/
theorem mapCalls_spec {source : FrameSource σ} {root : BitVec 64} {I : Machine σ → Prop}
    {Ok : Request → Prop} {Allowed : BitVec 64 → BitVec 64 → Prop}
    (hM : MapInv source root I Ok Allowed) (calls : List (BitVec 64 × BitVec 64))
    {s s' : Machine σ} (hI : I s) (hallowed : ∀ c ∈ calls, Allowed c.1 c.2)
    (hrun : mapCalls source ⟨root⟩ s calls = some s') (hOk : ∀ r ∈ s'.requests, Ok r) :
    I s' ∧ ∀ w, walk s'.mem root w =
      ((lastMapped calls w).map frameOf).or (walk s.mem root w) := by
  induction calls generalizing s with
  | nil =>
      obtain rfl := Option.some.inj hrun
      exact ⟨hI, fun _ => rfl⟩
  | cons c calls ih =>
      obtain ⟨v, p⟩ := c
      rw [mapCalls, Option.bind_eq_some_iff] at hrun
      obtain ⟨s₁, h1, hrest⟩ := hrun
      have hsuffix := mapCalls_suffix hrest
      obtain ⟨hI₁, hwalk₁⟩ := hM.mapMem_spec hI (hallowed (v, p) List.mem_cons_self) h1
        fun r hr => hOk r (hsuffix.subset hr)
      obtain ⟨hI', hwalk⟩ := ih hI₁ (fun c hc => hallowed c (List.mem_cons_of_mem _ hc)) hrest
      refine ⟨hI', fun w => ?_⟩
      rw [hwalk, hwalk₁, lastMapped_cons, Option.map_or, Option.or_assoc]
      by_cases h : SamePage v w <;> simp [h]

/-- Frames are not cut by the address field. -/
theorem lastMapped_map_frameOf {calls : List (BitVec 64 × BitVec 64)}
    (h : ∀ c ∈ calls, IsFrame c.2) (w : BitVec 64) :
    (lastMapped calls w).map frameOf = lastMapped calls w := by
  cases hlast : lastMapped calls w with
  | none => rfl
  | some p =>
      rw [lastMapped, Option.map_eq_some_iff] at hlast
      obtain ⟨c, hc, rfl⟩ := hlast
      have hmem := List.mem_reverse.mp (List.mem_of_find?_eq_some hc)
      rw [Option.map_some, (h c hmem).frameOf]

theorem mapCalls_isSome (source : FrameSource σ) (ptm : PageTableManager)
    (calls : List (BitVec 64 × BitVec 64)) {s : Machine σ} (h : s.cr3 = none) :
    ∃ s', mapCalls source ptm s calls = some s' := by
  induction calls generalizing s with
  | nil => exact ⟨s, rfl⟩
  | cons c calls ih =>
      obtain ⟨s₁, h1⟩ := mapMem_isSome source h ptm c.1 c.2
      obtain ⟨s', hrest⟩ := ih ((mapMem_cr3 h1).trans h)
      refine ⟨s', ?_⟩
      rw [mapCalls, h1]
      exact hrest

/-- **Page tables refine a finite map.**  From a cleared PML4, a sequence of calls returns;
and if every frame it was given was not a table yet, then the walk of an address is the
page of the last call for it, distinct paths lead to distinct tables, and the tables are
the PML4 and exactly the frames it was given, all different. -/
theorem mapCalls_refines (source : FrameSource σ) (s : Machine σ) (pml4 : BitVec 64)
    (calls : List (BitVec 64 × BitVec 64)) (hcr3 : s.cr3 = none) (hrequests : s.requests = [])
    (hframe : IsFrame pml4) (hzero : ∀ x, (x - pml4).toNat < 4096 → s.mem x = 0)
    (hcalls : ∀ c ∈ calls, IsFrame c.2) :
    ∃ s', mapCalls source ⟨pml4⟩ s calls = some s' ∧
      ((∀ r ∈ s'.requests, FreshTable pml4 r) →
        (∀ w, walk s'.mem pml4 w = lastMapped calls w) ∧
        Separated (edge s'.mem) 3 pml4 ∧
        (pml4 :: s'.requests.map Request.frame).Nodup ∧
        ∀ t, Table s'.mem pml4 t ↔ t = pml4 ∨ t ∈ s'.requests.map Request.frame) := by
  have hedge : ∀ i, edge s.mem pml4 i = none := edge_eq_none_of_zero hzero
  obtain ⟨s', hrun⟩ := mapCalls_isSome source ⟨pml4⟩ calls hcr3
  refine ⟨s', hrun, fun hOk => ?_⟩
  obtain ⟨hI, hwalk⟩ := mapCalls_spec (mapInv_treeInv source hframe) calls
    (TreeInv.init hcr3 hrequests hedge) hcalls hrun hOk
  refine ⟨fun w => ?_, hI.separated, hI.nodup, hI.tables⟩
  have hnone : walk s.mem pml4 w = none := by
    rw [walk, pathOf, descend_cons, hedge]
    rfl
  rw [hwalk, hnone, Option.or_none, lastMapped_map_frameOf hcalls]

/-! ## A counter as the source of frames -/

/-- The frames `0x2000`, `0x3000` and so on, a thousand of them. -/
def counterSource : FrameSource ℕ where
  request := fun s =>
    (if s.alloc < 1000 then BitVec.ofNat 64 (0x2000 + 4096 * s.alloc) else 0,
      { s with alloc := s.alloc + 1 })
  faults := fun _ => false
  cr3 := fun _ => rfl
  requests := fun _ => rfl
  noFault := fun _ _ => rfl

/-- The requests made so far were fresh, and their frames lie below the counter. -/
structure CounterInv (s : Machine ℕ) : Prop where
  tree : TreeInv 0x1000 s
  fresh : ∀ r ∈ s.requests, FreshTable 0x1000 r
  below : ∀ r ∈ s.requests, r.frame.toNat < 0x2000 + 4096 * s.alloc

theorem CounterInv.freshTable {s : Machine ℕ} (h : CounterInv s)
    (hOk : (nextRequest counterSource s).frame ≠ 0) :
    FreshTable 0x1000 (nextRequest counterSource s) := by
  have hlt : s.alloc < 1000 := by
    by_contra hge
    exact hOk (if_neg hge)
  have hframe : (nextRequest counterSource s).frame.toNat = 0x2000 + 4096 * s.alloc := by
    rw [nextRequest, counterSource]
    simp only [hlt, if_true, BitVec.toNat_ofNat]
    omega
  refine ⟨hOk, ⟨by omega, by omega⟩, fun htable => ?_, fun t _ => SameOn.refl _ _ _⟩
  rcases (h.tree.tables _).mp htable with heq | hmem
  · rw [heq] at hframe
    exact absurd hframe (by simp; omega)
  · obtain ⟨r, hr, heq⟩ := List.mem_map.mp hmem
    have := h.below r hr
    rw [heq] at this
    omega

/-- The counter invariant is kept as long as the counter has frames left. -/
theorem mapInv_counterInv : MapInv counterSource 0x1000 CounterInv (fun r => r.frame ≠ 0)
    fun _ p => IsFrame p where
  frame := by decide
  cr3 := fun s h => (mapInv_treeInv counterSource (by decide)).cr3 s h.tree
  separated := fun _ h => h.tree.separated
  direct := fun s h => (mapInv_treeInv counterSource (by decide)).direct s h.tree
  fresh := fun _ h hOk => h.tree.fresh (h.freshTable hOk)
  table := by
    intro s v p pre t i e h hOk _ _ hdepth hlink
    have hfresh := h.freshTable hOk
    have hlt : s.alloc < 1000 := by
      by_contra hge
      exact hOk (if_neg hge)
    refine ⟨h.tree.table hfresh hlink hdepth, ?_, ?_⟩
    · intro r hr
      rw [linkTable, Machine.takeFrame_requests] at hr
      rcases List.mem_cons.mp hr with rfl | hr
      · exact hfresh
      · exact h.fresh r hr
    · intro r hr
      rw [linkTable, Machine.takeFrame_requests] at hr
      have halloc : (linkTable (s.takeFrame counterSource).2 t i
          (counterSource.request s).1 e).alloc = s.alloc + 1 := rfl
      rw [halloc]
      rcases List.mem_cons.mp hr with rfl | hr
      · simp only [counterSource, hlt, if_true, BitVec.toNat_ofNat]
        omega
      · have := h.below r hr
        omega
  page := fun _ _ _ _ _ h _ hlink => ⟨h.tree.page hlink rfl, h.fresh, h.below⟩

/-- A level of `map_mem` moves the counter by at most one. -/
theorem enterTable_counter {s s' : Machine ℕ} {t i u : BitVec 64} {k : ℕ} (hk : k < 1000)
    (halloc : s.alloc ≤ k) (hne : ∀ r ∈ s.requests, r.frame ≠ 0)
    (h : enterTable counterSource s t i = some (u, s')) :
    s'.alloc ≤ k + 1 ∧ ∀ r ∈ s'.requests, r.frame ≠ 0 := by
  obtain ⟨-, ⟨rfl, -⟩ | ⟨hreq, halloc'⟩⟩ := enterTable_requests h
  · exact ⟨by omega, hne⟩
  · have halloc'' : s'.alloc = s.alloc + 1 := halloc'
    refine ⟨by omega, fun r hr => ?_⟩
    rw [hreq] at hr
    rcases List.mem_cons.mp hr with rfl | hr
    · have hlt : s.alloc < 1000 := by omega
      intro hzero
      have hnat := congrArg BitVec.toNat hzero
      simp only [counterSource, hlt, if_true, BitVec.toNat_ofNat, BitVec.ofNat_eq_ofNat] at hnat
      omega
    · exact hne r hr

/-- One call of `map_mem` on the counter is given fresh frames. -/
theorem counterSource_fresh {s s' : Machine ℕ} (hI : CounterInv s) (halloc : s.alloc = 0)
    {v p : BitVec 64} (hp : IsFrame p)
    (h : PageTableManager.mapMem counterSource ⟨0x1000⟩ s v p = some s') :
    ∀ r ∈ s'.requests, FreshTable 0x1000 r := by
  have hne : ∀ r ∈ s.requests, r.frame ≠ 0 := fun r hr => (hI.fresh r hr).ne_zero
  refine (mapInv_counterInv.mapMem_spec hI hp h ?_).1.fresh
  simp only [PageTableManager.mapMem, Option.bind_eq_some_iff, Prod.exists] at h
  obtain ⟨pdp, s₁, h1, pd, s₂, h2, pt, s₃, h3, h4⟩ := h
  obtain ⟨ha₁, hn₁⟩ := enterTable_counter (by omega) (Nat.le_of_eq halloc) hne h1
  obtain ⟨ha₂, hn₂⟩ := enterTable_counter (by omega) ha₁ hn₁ h2
  obtain ⟨-, hn₃⟩ := enterTable_counter (by omega) ha₂ hn₂ h3
  rwa [(setPage_requests h4).1]

/-- Mapping one page on cleared memory. -/
theorem mapCalls_refines_counter :
    ∃ s', mapCalls counterSource ⟨0x1000⟩ ⟨fun _ => 0, none, [], 0⟩ [(0x400000, 0x5000)] = some s' ∧
      walk s'.mem 0x1000 0x400123 = some 0x5000 ∧ walk s'.mem 0x1000 0x401000 = none := by
  obtain ⟨s', hrun, h⟩ := mapCalls_refines counterSource ⟨fun _ => 0, none, [], 0⟩ 0x1000
    [(0x400000, 0x5000)] rfl rfl (by decide) (fun _ _ => rfl) (fun c hc => by
      obtain rfl := List.mem_singleton.mp hc
      decide)
  have hinit : CounterInv ⟨fun _ => 0, none, [], 0⟩ :=
    ⟨TreeInv.init rfl rfl (edge_eq_none_of_zero fun _ _ => rfl), fun r hr => absurd hr
      List.not_mem_nil, fun r hr => absurd hr List.not_mem_nil⟩
  have hcall : PageTableManager.mapMem counterSource ⟨0x1000⟩ ⟨fun _ => 0, none, [], 0⟩ 0x400000
      0x5000 = some s' := by
    rw [mapCalls, Option.bind_eq_some_iff] at hrun
    obtain ⟨s₁, h1, hnil⟩ := hrun
    rw [h1, ← Option.some.inj hnil]
  obtain ⟨hwalk, -⟩ := h (counterSource_fresh hinit rfl (by decide) hcall)
  refine ⟨s', hrun, ?_, ?_⟩
  · rw [hwalk]
    decide
  · rw [hwalk]
    decide

end EtaOs
