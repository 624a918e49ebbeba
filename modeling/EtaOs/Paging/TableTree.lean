import EtaOs.Paging.MapMem

/-!
# `map_mem` on the tree of tables

The four levels of `map_mem` are links of the radix tree that the tables make up: an
upper level points a vacant entry at a cleared frame, the last level points an entry at
the page.  Each changes the end of one path and of no other, as long as the frames are
not tables already and the pointers denote the tables they are meant to.

The invariant is left open because the development needs several: before paging, after it, with the
heap, with frames of others.  Each of them is put together from an old one and a property that both
kinds of link keep, and `map_mem` never has to be looked at again.

* `link_of_fresh`, `link_of_leaf`: the two stores as links.
* `MapInv`: an invariant of the machine that gives what `map_mem` needs and that the two
  kinds of link keep.
* `mapMem_spec`: under such an invariant a call of `map_mem` maps its page and leaves the
  walk of every other page alone.
-/

namespace EtaOs

open ByteMemory RadixTree

variable {σ : Type}

/-! ## Frames and tables -/

/-- The frame an address is cut to by the address field of an entry. -/
def frameOf (p : BitVec 64) : BitVec 64 := p &&& 0x000ffffffffff000#64

theorem IsFrame.frameOf {p : BitVec 64} (hp : IsFrame p) : frameOf p = p := hp.and_addressMask

theorem isFrame_frameOf (p : BitVec 64) : IsFrame (frameOf p) := by
  have hshift : EtaOs.frameOf p = ((⟨p⟩ : PageDirEntry).getAddress) <<< 12 :=
    (getAddress_shift ⟨p⟩).symm
  constructor
  · rw [hshift, BitVec.toNat_shiftLeft, Nat.shiftLeft_eq]
    omega
  · rw [EtaOs.frameOf, BitVec.toNat_and]
    exact lt_of_le_of_lt Nat.and_le_right (by decide)

theorem isFrame_of_edge {m : Mem} {t f : BitVec 64} {i : BitVec 9} (h : edge m t i = some f) :
    IsFrame f := by
  rw [edge] at h
  split at h
  · obtain rfl := Option.some.inj h
    exact isFrame_frameOf _
  · exact absurd h.symm (Option.some_ne_none f)

/-- Every table of a tree with a frame at its root is a frame. -/
theorem isFrame_of_descend {m : Mem} {root t : BitVec 64} (hroot : IsFrame root)
    {p : List (BitVec 9)} (h : descend (edge m) root p = some t) : IsFrame t := by
  induction p using List.reverseRecOn generalizing t with
  | nil =>
      obtain rfl := Option.some.inj h
      exact hroot
  | append_singleton p i _ =>
      rw [descend_snoc, Option.bind_eq_some_iff] at h
      obtain ⟨u, -, hedge⟩ := h
      exact isFrame_of_edge hedge

theorem isFrame_of_table {m : Mem} {root t : BitVec 64} (hroot : IsFrame root)
    (h : Table m root t) : IsFrame t := by
  obtain ⟨p, -, hp⟩ := h
  exact isFrame_of_descend hroot hp

/-- Different frames share no byte. -/
theorem IsFrame.apart {a b : BitVec 64} (ha : IsFrame a) (hb : IsFrame b) (h : a ≠ b) :
    Apart a 4096 b 4096 := by
  obtain ⟨ha1, ha2⟩ := ha
  obtain ⟨hb1, hb2⟩ := hb
  have hne : a.toNat ≠ b.toNat := fun heq => h (BitVec.eq_of_toNat_eq heq)
  constructor <;> bv_omega

theorem entryAddr_range (t : BitVec 64) (i : BitVec 9) : (entryAddr t i - t).toNat + 8 ≤ 4096 := by
  have hi := i.isLt
  rw [entryAddr_sub]
  omega

/-- Different entries of a table share no byte. -/
theorem entryAddr_apart {t : BitVec 64} {i j : BitVec 9} (h : i ≠ j) :
    Apart (entryAddr t i) 8 (entryAddr t j) 8 := by
  have hi := i.isLt
  have hj := j.isLt
  have hne : i.toNat ≠ j.toNat := fun heq => h (BitVec.eq_of_toNat_eq heq)
  have h1 := entryAddr_sub t i
  have h2 := entryAddr_sub t j
  constructor <;> bv_omega

/-- A cleared table has no entries. -/
theorem edge_eq_none_of_zero {m : Mem} {t : BitVec 64}
    (h : ∀ x, (x - t).toNat < 4096 → m x = 0) (i : BitVec 9) : edge m t i = none := by
  have hfill : SameOn t 4096 (fill m t 4096 0) m := by
    intro x hx
    rw [h x hx]
    simp only [fill, hx, if_true]
  rw [edge_congr hfill, edge, load64_fill_zero (entryAddr_range t i)]
  rfl

/-! ## Stores as links -/

theorem edge_store64 {m : Mem} {t : BitVec 64} {i : BitVec 9} {e : BitVec 64}
    (he : e.getLsbD 0 = true) :
    edge (store64 m (entryAddr t i) e) t i = some (e &&& 0x000ffffffffff000#64) := by
  rw [edge, load64_store64]
  simp only [he, if_true]

/-- Entries of frames are the same entry or share no byte. -/
theorem entry_apart {t u : BitVec 64} {i j : BitVec 9} (ht : IsFrame t) (hu : IsFrame u)
    (h : u ≠ t ∨ j ≠ i) : Apart (entryAddr t i) 8 (entryAddr u j) 8 := by
  by_cases htu : u = t
  · subst htu
    exact entryAddr_apart (Ne.symm (h.resolve_left fun hne => hne rfl))
  · exact (ht.apart hu (Ne.symm htu)).mono (entryAddr_range t i) (entryAddr_range u j)
      (by decide) (by decide)

/-- A store in an entry does not change other entries. -/
theorem edge_store64_of_ne {m : Mem} {t u : BitVec 64} {i j : BitVec 9} {e : BitVec 64}
    (ht : IsFrame t) (hu : IsFrame u) (h : u ≠ t ∨ j ≠ i) :
    edge (store64 m (entryAddr t i) e) u j = edge m u j := by
  rw [edge, edge, load64_store64_of_apart e (entry_apart ht hu h)]

/-- **The store of an upper level is a link** to an empty table. -/
theorem link_of_fresh {m m₁ : Mem} {root t f e : BitVec 64} {pre : List (BitVec 9)} {i : BitVec 9}
    (hroot : IsFrame root) (hreach : descend (edge m) root pre = some t) (hdepth : pre.length < 3)
    (hvacant : edge m t i = none) (hf : IsFrame f) (hnew : ¬ Table m root f)
    (hsame : ∀ u, Table m root u → SameOn u 4096 m m₁) (hpresent : e.getLsbD 0 = true)
    (haddr : e &&& 0x000ffffffffff000#64 = f) :
    Link (edge m) (edge (store64 (fill m₁ f 4096 0) (entryAddr t i) e)) 3 root pre t i f where
  reach := hreach
  depth := by omega
  edge := by rw [edge_store64 hpresent, haddr]
  other := by
    intro u j hu hne
    have htable : Table m root t := ⟨pre, by omega, hreach⟩
    have huf : u ≠ f := by
      rintro rfl
      exact hnew hu
    have hframe := isFrame_of_table hroot hu
    rw [edge_store64_of_ne (isFrame_of_table hroot htable) hframe hne]
    exact edge_congr ((hsame u hu).trans (sameOn_fill 0 (hf.apart hframe (Ne.symm huf)))) j
  fresh := by
    refine fun _ => ⟨hvacant, fun j => ?_⟩
    have htable : Table m root t := ⟨pre, by omega, hreach⟩
    have hft : f ≠ t := by
      rintro rfl
      exact hnew htable
    rw [edge_store64_of_ne (isFrame_of_table hroot htable) hf (Or.inl hft)]
    rw [EtaOs.edge, load64_fill_zero (entryAddr_range f j)]
    rfl

/-- **The store of the last level is a link** to a page. -/
theorem link_of_leaf {m : Mem} {root t e f : BitVec 64} {pre : List (BitVec 9)} {i : BitVec 9}
    (hroot : IsFrame root) (hreach : descend (edge m) root pre = some t) (hdepth : pre.length = 3)
    (hpresent : e.getLsbD 0 = true) (haddr : e &&& 0x000ffffffffff000#64 = f) :
    Link (edge m) (edge (store64 m (entryAddr t i) e)) 3 root pre t i f where
  reach := hreach
  depth := by omega
  edge := by rw [edge_store64 hpresent, haddr]
  other := fun u j hu hne =>
    edge_store64_of_ne (isFrame_of_table hroot ⟨pre, by omega, hreach⟩)
      (isFrame_of_table hroot hu) hne
  fresh := fun h => absurd h (by omega)

/-- A link above the leaf level changes no walk. -/
theorem walk_link {m m' : Mem} {root t f : BitVec 64} {pre : List (BitVec 9)} {i : BitVec 9}
    (hlink : Link (edge m) (edge m') 3 root pre t i f) (hsep : Separated (edge m) 3 root)
    (hdepth : pre.length < 3) (w : BitVec 64) : walk m' root w = walk m root w := by
  rw [walk, hlink.descend_eq hsep _ (by simp [pathOf]), if_neg]
  · rfl
  · intro heq
    have hlen := congrArg List.length heq
    simp [pathOf] at hlen
    omega

/-- A link at the leaf level changes the walk of its page. -/
theorem walk_leaf {m m' : Mem} {root t f v : BitVec 64}
    (hlink : Link (edge m) (edge m') 3 root [tableIndex v 3, tableIndex v 2, tableIndex v 1] t
      (tableIndex v 0) f) (hsep : Separated (edge m) 3 root) (w : BitVec 64) :
    walk m' root w = if SamePage v w then some f else walk m root w := by
  have hpath : pathOf w = [tableIndex v 3, tableIndex v 2, tableIndex v 1] ++ [tableIndex v 0] ↔
      SamePage v w := eq_comm.trans pathOf_eq_iff
  rw [walk, hlink.descend_eq hsep _ (by simp [pathOf])]
  simp only [hpath]
  rfl

/-! ## Levels without an invariant -/

/-- A level whose entry is present, through a pointer that denotes the table. -/
theorem enterTable_of_direct {source : FrameSource σ} {s : Machine σ} {t f : BitVec 64}
    {i : BitVec 9} (hdirect : s.Direct (entryAddr t i)) (hedge : edge s.mem t i = some f) :
    enterTable source s t (i.setWidth 64) = some (f, s) := by
  have hload := hdirect.load64
  rw [entryAddr] at hload
  rw [edge] at hedge
  split at hedge
  next hbit =>
    rw [enterTable, hload, Option.bind_some]
    simp only [getFlag_present, getAddress_shift]
    rw [entryAddr] at hbit hedge
    rw [hbit]
    simpa using hedge
  next => exact absurd hedge.symm (Option.some_ne_none f)

/-- The last level stores its entry where the pointer to the table leads. -/
theorem setPage_of_phys {s : Machine σ} {t q : BitVec 64} {i : BitVec 9}
    (hphys : s.phys (entryAddr t i) = some q) (p : BitVec 64) :
    ∃ e : BitVec 64, setPage s t (i.setWidth 64) p =
        some { s with mem := ByteMemory.store64 s.mem q e } ∧
      e.getLsbD 0 = true ∧ e &&& 0x000ffffffffff000#64 = frameOf p := by
  have hload : s.load64 (entryAddr t i) = some (ByteMemory.load64 s.mem q) := by
    rw [Machine.load64, hphys, Option.map_some]
  have hstore : ∀ e, s.store64 (entryAddr t i) e =
      some { s with mem := ByteMemory.store64 s.mem q e } := by
    intro e
    rw [Machine.store64, hphys, Option.map_some]
  refine ⟨(mappedEntry ⟨ByteMemory.load64 s.mem q⟩ (p >>> 12)).value, ?_,
    mappedEntry_present _ _, mappedEntry_address _ p⟩
  rw [entryAddr] at hload hstore
  rw [setPage, hload, Option.bind_some]
  exact hstore _

/-- **On a path of tables `map_mem` only sets its page.** -/
theorem mapMem_of_present {source : FrameSource σ} {s : Machine σ} {root v p t : BitVec 64}
    (hreach : descend (edge s.mem) root [tableIndex v 3, tableIndex v 2, tableIndex v 1] = some t)
    (hdirect : ∀ pre u i, pre.length < 3 → descend (edge s.mem) root pre = some u →
      s.Direct (entryAddr u i)) :
    PageTableManager.mapMem source ⟨root⟩ s v p = setPage s t ((tableIndex v 0).setWidth 64) p := by
  rw [descend_cons, Option.bind_eq_some_iff] at hreach
  obtain ⟨pdp, h3, hreach⟩ := hreach
  rw [descend_cons, Option.bind_eq_some_iff] at hreach
  obtain ⟨pd, h2, hreach⟩ := hreach
  rw [descend_cons, Option.bind_eq_some_iff] at hreach
  obtain ⟨pt, h1, hreach⟩ := hreach
  obtain rfl := Option.some.inj hreach
  have hpdp : descend (edge s.mem) root [tableIndex v 3] = some pdp := by
    rw [descend_cons, h3]
    rfl
  have hpd : descend (edge s.mem) root [tableIndex v 3, tableIndex v 2] = some pd := by
    rw [descend_cons, h3, Option.bind_some, descend_cons, h2]
    rfl
  unfold PageTableManager.mapMem
  dsimp only
  rw [pdpI_ofAddr, pdI_ofAddr, ptI_ofAddr, pI_ofAddr,
    enterTable_of_direct (hdirect [] root _ (by simp) rfl) h3, Option.bind_some,
    enterTable_of_direct (hdirect _ pdp _ (by simp) hpdp) h2, Option.bind_some,
    enterTable_of_direct (hdirect _ pd _ (by simp) hpd) h1, Option.bind_some]

/-! ## Invariants that `map_mem` keeps -/

/-- The machine after an upper level has linked the frame `f` in entry `i` of `t`. -/
def linkTable (s : Machine σ) (t : BitVec 64) (i : BitVec 9) (f e : BitVec 64) : Machine σ :=
  { s with mem := store64 (fill s.mem f 4096 0) (entryAddr t i) e }

/-- The machine after the last level has set entry `i` of `t`. -/
def linkPage (s : Machine σ) (t : BitVec 64) (i : BitVec 9) (e : BitVec 64) : Machine σ :=
  { s with mem := store64 s.mem (entryAddr t i) e }

/-- The record entry of a request made in `s`. -/
def nextRequest (source : FrameSource σ) (s : Machine σ) : Request :=
  ⟨s.mem, (source.request s).1, (source.request s).2.mem⟩

/-- What `map_mem` needs of a frame it is given in `s`. -/
structure FreshFrame (source : FrameSource σ) (root : BitVec 64) (s : Machine σ) : Prop where
  returns : source.faults s = false
  frame : IsFrame (source.request s).1
  new : ¬ Table s.mem root (source.request s).1
  same : ∀ t, Table s.mem root t → SameOn t 4096 s.mem (source.request s).2.mem
  direct : ∀ x, (x - (source.request s).1).toNat < 4096 → (s.takeFrame source).2.Direct x

/-- An invariant `I` of the machine that `map_mem` keeps, on requests that satisfy `Ok`
and for mappings in `Allowed`.  A table is linked on the path of an allowed address. -/
structure MapInv (source : FrameSource σ) (root : BitVec 64) (I : Machine σ → Prop)
    (Ok : Request → Prop) (Allowed : BitVec 64 → BitVec 64 → Prop) : Prop where
  frame : IsFrame root
  cr3 : ∀ s, I s → ∀ r, s.cr3 = some r → r = root
  separated : ∀ s, I s → Separated (edge s.mem) 3 root
  direct : ∀ s, I s → ∀ t, Table s.mem root t → ∀ x, (x - t).toNat < 4096 → s.Direct x
  fresh : ∀ s, I s → Ok (nextRequest source s) → FreshFrame source root s
  table : ∀ s v p pre t i e, I s → Ok (nextRequest source s) → Allowed v p →
    pre ++ [i] <+: pathOf v → pre.length < 3 →
    Link (edge s.mem) (edge (linkTable (s.takeFrame source).2 t i (source.request s).1 e).mem) 3
      root pre t i (source.request s).1 →
    I (linkTable (s.takeFrame source).2 t i (source.request s).1 e)
  page : ∀ s v p t e, I s → Allowed v p →
    Link (edge s.mem) (edge (linkPage s t (tableIndex v 0) e).mem) 3 root
      [tableIndex v 3, tableIndex v 2, tableIndex v 1] t (tableIndex v 0) (frameOf p) →
    I (linkPage s t (tableIndex v 0) e)

namespace MapInv

variable {source : FrameSource σ} {root : BitVec 64} {I : Machine σ → Prop} {Ok : Request → Prop}
  {Allowed : BitVec 64 → BitVec 64 → Prop}

/-- An invariant is kept by fewer mappings as well. -/
theorem mono (h : MapInv source root I Ok Allowed) {Allowed' : BitVec 64 → BitVec 64 → Prop}
    (hle : ∀ v p, Allowed' v p → Allowed v p) : MapInv source root I Ok Allowed' :=
  { h with
    table := fun s v p pre t i e hI hOk ha => h.table s v p pre t i e hI hOk (hle v p ha)
    page := fun s v p t e hI ha => h.page s v p t e hI (hle v p ha) }

/-- An invariant may be strengthened by what both kinds of link keep. -/
theorem and (h : MapInv source root I Ok Allowed) {J : Machine σ → Prop}
    (htable : ∀ s v p pre t i e, I s → J s → Ok (nextRequest source s) → Allowed v p →
      pre ++ [i] <+: pathOf v → pre.length < 3 →
      Link (edge s.mem) (edge (linkTable (s.takeFrame source).2 t i (source.request s).1 e).mem) 3
        root pre t i (source.request s).1 →
      J (linkTable (s.takeFrame source).2 t i (source.request s).1 e))
    (hpage : ∀ s v p t e, I s → J s → Allowed v p →
      Link (edge s.mem) (edge (linkPage s t (tableIndex v 0) e).mem) 3 root
        [tableIndex v 3, tableIndex v 2, tableIndex v 1] t (tableIndex v 0) (frameOf p) →
      J (linkPage s t (tableIndex v 0) e)) :
    MapInv source root (fun s => I s ∧ J s) Ok Allowed where
  frame := h.frame
  cr3 := fun s hs => h.cr3 s hs.1
  separated := fun s hs => h.separated s hs.1
  direct := fun s hs => h.direct s hs.1
  fresh := fun s hs => h.fresh s hs.1
  table := fun s v p pre t i e hs hOk ha hpath hdepth hlink =>
    ⟨h.table s v p pre t i e hs.1 hOk ha hpath hdepth hlink,
      htable s v p pre t i e hs.1 hs.2 hOk ha hpath hdepth hlink⟩
  page := fun s v p t e hs ha hlink =>
    ⟨h.page s v p t e hs.1 ha hlink, hpage s v p t e hs.1 hs.2 ha hlink⟩

/-- An invariant serves another source of frames that gives the same ones under it. -/
theorem congr (h : MapInv source root I Ok Allowed) {source' : FrameSource σ}
    (heq : ∀ s, I s → source'.request s = source.request s ∧ source'.faults s = false) :
    MapInv source' root I Ok Allowed := by
  have htake : ∀ s, I s → s.takeFrame source' = s.takeFrame source := by
    intro s hI
    rw [Machine.takeFrame, Machine.takeFrame, (heq s hI).1]
  have hnext : ∀ s, I s → nextRequest source' s = nextRequest source s := by
    intro s hI
    rw [nextRequest, nextRequest, (heq s hI).1]
  refine { h with fresh := fun s hI hOk => ?_, table := fun s v p pre t i e hI hOk => ?_ }
  · rw [hnext s hI] at hOk
    obtain ⟨-, hframe, hnew, hsame, hdirect⟩ := h.fresh s hI hOk
    rw [← (heq s hI).1] at hframe hnew hsame hdirect
    rw [← htake s hI] at hdirect
    exact ⟨(heq s hI).2, hframe, hnew, hsame, hdirect⟩
  · rw [hnext s hI] at hOk
    rw [htake s hI, (heq s hI).1]
    exact h.table s v p pre t i e hI hOk

/-- A level whose entry is present. -/
theorem enterTable_of_present (h : MapInv source root I Ok Allowed) {s : Machine σ} (hI : I s)
    {pre : List (BitVec 9)} {t f : BitVec 64} {i : BitVec 9}
    (hreach : descend (edge s.mem) root pre = some t) (hdepth : pre.length ≤ 3)
    (hedge : edge s.mem t i = some f) : enterTable source s t (i.setWidth 64) = some (f, s) := by
  have hrange := entryAddr_range t i
  exact enterTable_of_direct (h.direct s hI t ⟨pre, hdepth, hreach⟩ _ (by omega)) hedge

/-- The load of an entry that is not present. -/
theorem load64_of_vacant (h : MapInv source root I Ok Allowed) {s : Machine σ} (hI : I s)
    {pre : List (BitVec 9)} {t : BitVec 64} {i : BitVec 9}
    (hreach : descend (edge s.mem) root pre = some t) (hdepth : pre.length ≤ 3)
    (hedge : edge s.mem t i = none) :
    s.load64 (entryAddr t i) = some (ByteMemory.load64 s.mem (entryAddr t i)) ∧
      (ByteMemory.load64 s.mem (entryAddr t i)).getLsbD 0 = false := by
  have hrange := entryAddr_range t i
  refine ⟨(h.direct s hI t ⟨pre, hdepth, hreach⟩ (entryAddr t i) (by omega)).load64, ?_⟩
  by_contra hne
  rw [Bool.not_eq_false] at hne
  rw [edge] at hedge
  simp only [hne, if_true] at hedge
  exact Option.some_ne_none _ hedge

/-- A level whose entry is not present. -/
theorem enterTable_of_vacant (h : MapInv source root I Ok Allowed) {s : Machine σ} (hI : I s)
    (hOk : Ok (nextRequest source s)) {pre : List (BitVec 9)} {t : BitVec 64} {i : BitVec 9}
    (hreach : descend (edge s.mem) root pre = some t) (hdepth : pre.length < 3)
    (hedge : edge s.mem t i = none) :
    ∃ e, enterTable source s t (i.setWidth 64) = some ((source.request s).1,
        linkTable (s.takeFrame source).2 t i (source.request s).1 e) ∧
      Link (edge s.mem) (edge (linkTable (s.takeFrame source).2 t i (source.request s).1 e).mem) 3
        root pre t i (source.request s).1 := by
  have hfresh := h.fresh s hI hOk
  have hrange := entryAddr_range t i
  have htable : Table s.mem root t := ⟨pre, by omega, hreach⟩
  obtain ⟨hload, hbit⟩ := h.load64_of_vacant hI hreach (by omega) hedge
  -- the tables keep their bytes, so pointers to them stay what they are
  have hsame : ∀ u, Table s.mem root u →
      SameOn u 4096 s.mem (fill (source.request s).2.mem (source.request s).1 4096 0) := by
    intro u hu
    have hne : (source.request s).1 ≠ u := by
      intro heq
      exact hfresh.new (heq ▸ hu)
    exact (hfresh.same u hu).trans
      (sameOn_fill 0 (hfresh.frame.apart (isFrame_of_table h.frame hu) hne))
  have hmemset : memset (s.takeFrame source).2 (source.request s).1 0 4096 =
      some { (s.takeFrame source).2 with
        mem := fill (source.request s).2.mem (source.request s).1 4096 0 } := by
    refine memsetLoop_eq_fill (by decide) (fun j hj => hfresh.direct _ ?_) ?_
    · have hj' : j < 4096 := hj
      bv_omega
    · intro r hr u hu
      rw [Machine.takeFrame_cr3] at hr
      obtain rfl := h.cr3 s hI r hr
      have hu' : Table s.mem r u := (table_congr hfresh.same u).mp hu
      have hne : (source.request s).1 ≠ u := by
        intro heq
        exact hfresh.new (heq ▸ hu')
      exact hfresh.frame.apart (isFrame_of_table h.frame hu') hne
  have hdirect : Machine.Direct { (s.takeFrame source).2 with
      mem := fill (source.request s).2.mem (source.request s).1 4096 0 } (entryAddr t i) := by
    refine (Machine.phys_congr (s := s) ?_ ?_ _).trans (h.direct s hI t htable _ (by omega))
    · exact Machine.takeFrame_cr3 source s
    · intro r hr u hu
      obtain rfl := h.cr3 s hI r hr
      exact hsame u hu
  refine ⟨(mappedEntry ⟨ByteMemory.load64 s.mem (entryAddr t i)⟩
    ((source.request s).1 >>> 12)).value, ?_, ?_⟩
  · have hstore := hdirect.store64
      (mappedEntry ⟨ByteMemory.load64 s.mem (entryAddr t i)⟩ ((source.request s).1 >>> 12)).value
    rw [entryAddr] at hload hstore hbit
    rw [enterTable, hload, Option.bind_some]
    simp only [getFlag_present, hbit, Bool.not_false, if_true]
    rw [Machine.requestFrame_of_returns hfresh.returns, Option.bind_some, Machine.takeFrame_fst,
      hmemset, Option.bind_some, ← mappedEntry, hstore]
    rfl
  · exact link_of_fresh h.frame hreach hdepth hedge hfresh.frame hfresh.new hfresh.same
      (mappedEntry_present _ _) ((mappedEntry_address _ _).trans hfresh.frame.frameOf)

/-- **One upper level.**  The entry it descends through is present afterwards, and no walk
changes. -/
theorem enterTable_spec (h : MapInv source root I Ok Allowed) {s s' : Machine σ} (hI : I s)
    {v p : BitVec 64} (hallowed : Allowed v p) {pre : List (BitVec 9)} {t u : BitVec 64}
    {i : BitVec 9} (hpath : pre ++ [i] <+: pathOf v)
    (hreach : descend (edge s.mem) root pre = some t) (hdepth : pre.length < 3)
    (hrun : enterTable source s t (i.setWidth 64) = some (u, s')) (hOk : ∀ r ∈ s'.requests, Ok r) :
    I s' ∧ descend (edge s'.mem) root (pre ++ [i]) = some u ∧
      ∀ w, walk s'.mem root w = walk s.mem root w := by
  cases hedge : edge s.mem t i with
  | some f =>
      rw [h.enterTable_of_present hI hreach (by omega) hedge] at hrun
      obtain ⟨rfl, rfl⟩ := Prod.mk.inj (Option.some.inj hrun)
      refine ⟨hI, ?_, fun _ => rfl⟩
      rw [descend_snoc, hreach]
      exact hedge
  | none =>
      -- the request this level makes is the last one recorded
      have hnext : Ok (nextRequest source s) := by
        rcases (enterTable_requests hrun).2 with ⟨-, e, he, hbit⟩ | ⟨hreq, -⟩
        · obtain ⟨hload, hvacant⟩ := h.load64_of_vacant hI hreach (by omega) hedge
          rw [← entryAddr, hload] at he
          rw [Option.some.inj he, hbit] at hvacant
          exact Bool.noConfusion hvacant
        · exact hOk _ (by rw [hreq]; exact List.mem_cons_self)
      obtain ⟨e, heq, hlink⟩ := h.enterTable_of_vacant hI hnext hreach hdepth hedge
      rw [heq] at hrun
      obtain ⟨rfl, rfl⟩ := Prod.mk.inj (Option.some.inj hrun)
      have hsep := h.separated s hI
      refine ⟨h.table s v p pre t i e hI hnext hallowed hpath hdepth hlink, ?_,
        walk_link hlink hsep hdepth⟩
      rw [hlink.descend_eq hsep _ (by simp; omega), if_pos rfl]

/-- **The last level.**  The walk of the page it maps ends at the frame it is given, and no
other walk changes. -/
theorem setPage_spec (h : MapInv source root I Ok Allowed) {s s' : Machine σ} (hI : I s)
    {v p t : BitVec 64} (hallowed : Allowed v p)
    (hreach : descend (edge s.mem) root [tableIndex v 3, tableIndex v 2, tableIndex v 1] = some t)
    (hrun : setPage s t ((tableIndex v 0).setWidth 64) p = some s') :
    I s' ∧ ∀ w, walk s'.mem root w =
      if SamePage v w then some (frameOf p) else walk s.mem root w := by
  have hrange := entryAddr_range t (tableIndex v 0)
  have hdirect := h.direct s hI t ⟨_, by simp, hreach⟩ (entryAddr t (tableIndex v 0)) (by omega)
  obtain ⟨e, hset, hpresent, haddr⟩ := setPage_of_phys hdirect p
  have hrun' : s' = linkPage s t (tableIndex v 0) e := Option.some.inj (hrun.symm.trans hset)
  have hlink := link_of_leaf (m := s.mem) (i := tableIndex v 0) h.frame hreach (by simp) hpresent
    haddr
  rw [hrun']
  exact ⟨h.page s v p t _ hI hallowed hlink, walk_leaf hlink (h.separated s hI)⟩

/-- **`map_mem` maps its page** and leaves the walk of every other page alone. -/
theorem mapMem_spec (h : MapInv source root I Ok Allowed) {s s' : Machine σ} (hI : I s)
    {v p : BitVec 64} (hallowed : Allowed v p)
    (hrun : PageTableManager.mapMem source ⟨root⟩ s v p = some s')
    (hOk : ∀ r ∈ s'.requests, Ok r) :
    I s' ∧ ∀ w, walk s'.mem root w =
      if SamePage v w then some (frameOf p) else walk s.mem root w := by
  simp only [PageTableManager.mapMem, Option.bind_eq_some_iff, Prod.exists] at hrun
  obtain ⟨pdp, s₁, h1, pd, s₂, h2, pt, s₃, h3, h4⟩ := hrun
  rw [pdpI_ofAddr] at h1
  rw [pdI_ofAddr] at h2
  rw [ptI_ofAddr] at h3
  rw [pI_ofAddr] at h4
  -- the record only grows, so the requests of every level are among the last
  have hOk₃ : ∀ r ∈ s₃.requests, Ok r := by rwa [← (setPage_requests h4).1]
  have hOk₂ : ∀ r ∈ s₂.requests, Ok r := fun r hr => hOk₃ r ((enterTable_suffix h3).subset hr)
  have hOk₁ : ∀ r ∈ s₁.requests, Ok r := fun r hr => hOk₂ r ((enterTable_suffix h2).subset hr)
  obtain ⟨hI₁, hreach₁, hwalk₁⟩ := h.enterTable_spec hI hallowed
    ⟨[tableIndex v 2, tableIndex v 1, tableIndex v 0], rfl⟩ (descend_nil _ _) (by simp) h1 hOk₁
  obtain ⟨hI₂, hreach₂, hwalk₂⟩ := h.enterTable_spec hI₁ hallowed
    ⟨[tableIndex v 1, tableIndex v 0], rfl⟩ hreach₁ (by simp) h2 hOk₂
  obtain ⟨hI₃, hreach₃, hwalk₃⟩ := h.enterTable_spec hI₂ hallowed ⟨[tableIndex v 0], rfl⟩ hreach₂
    (by simp) h3 hOk₃
  obtain ⟨hI', hwalk⟩ := h.setPage_spec hI₃ hallowed hreach₃ h4
  refine ⟨hI', fun w => ?_⟩
  rw [hwalk, hwalk₃, hwalk₂, hwalk₁]

/-- One upper level returns. -/
theorem enterTable_total (h : MapInv source root I Ok Allowed) {s : Machine σ} (hI : I s)
    (hOk : Ok (nextRequest source s)) {pre : List (BitVec 9)} {t : BitVec 64} {i : BitVec 9}
    (hreach : descend (edge s.mem) root pre = some t) (hdepth : pre.length < 3) :
    ∃ r, enterTable source s t (i.setWidth 64) = some r := by
  cases hedge : edge s.mem t i with
  | some f => exact ⟨_, h.enterTable_of_present hI hreach (by omega) hedge⟩
  | none =>
      obtain ⟨e, heq, -⟩ := h.enterTable_of_vacant hI hOk hreach hdepth hedge
      exact ⟨_, heq⟩

/-- **`map_mem` returns** under an invariant that makes every request good: no access to a
table faults. -/
theorem mapMem_total (h : MapInv source root I (fun _ => True) Allowed) {s : Machine σ} (hI : I s)
    {v p : BitVec 64} (hallowed : Allowed v p) :
    ∃ s', PageTableManager.mapMem source ⟨root⟩ s v p = some s' := by
  obtain ⟨⟨pdp, s₁⟩, h1⟩ := h.enterTable_total (i := tableIndex v 3) hI trivial (descend_nil _ _)
    (by simp)
  obtain ⟨hI₁, hreach₁, -⟩ := h.enterTable_spec hI hallowed
    ⟨[tableIndex v 2, tableIndex v 1, tableIndex v 0], rfl⟩ (descend_nil _ _) (by simp) h1
    fun _ _ => trivial
  obtain ⟨⟨pd, s₂⟩, h2⟩ := h.enterTable_total (i := tableIndex v 2) hI₁ trivial hreach₁ (by simp)
  obtain ⟨hI₂, hreach₂, -⟩ := h.enterTable_spec hI₁ hallowed
    ⟨[tableIndex v 1, tableIndex v 0], rfl⟩ hreach₁ (by simp) h2 fun _ _ => trivial
  obtain ⟨⟨pt, s₃⟩, h3⟩ := h.enterTable_total (i := tableIndex v 1) hI₂ trivial hreach₂ (by simp)
  obtain ⟨hI₃, hreach₃, -⟩ := h.enterTable_spec hI₂ hallowed ⟨[tableIndex v 0], rfl⟩ hreach₂
    (by simp) h3 fun _ _ => trivial
  have hrange := entryAddr_range pt (tableIndex v 0)
  have hdirect :=
    h.direct s₃ hI₃ pt ⟨_, by simp, hreach₃⟩ (entryAddr pt (tableIndex v 0)) (by omega)
  unfold PageTableManager.mapMem
  dsimp only
  rw [pdpI_ofAddr, pdI_ofAddr, ptI_ofAddr, pI_ofAddr, h1, Option.bind_some, h2, Option.bind_some,
    h3, Option.bind_some]
  obtain ⟨e, hset, -⟩ := setPage_of_phys hdirect p
  exact ⟨_, hset⟩

end MapInv

end EtaOs
