import EtaOs.Boot.SplitMemory
import EtaOs.KernelHeap.BootImage

/-!
# A page of the heap over the bitmap

Behind `mov cr3` the allocator follows `page_bitmap.buffer` through the tables.  When the bitmap
lies in the part of the address space where the kernel builds its heap, a page of the heap is mapped
over it, and from then on the allocator reads its marks in the frame of that page.

## What the allocator does then

The frame of the new page holds zeros, so the allocator takes every frame for a free one.  The next
request returns the frame where its scan stands, and that is the frame of the page itself, as it was
the last one returned.  Clearing it wipes out the mark that the request has just made, and the
request after that returns it once more.

## What becomes of the tables

So when `map_mem` needs a table for an address, it links this frame, and when it needs another table
below the first, it links the frame in itself.  The entry of the page it maps lands in the entry of
the table, and the page of the mapping has become a table, which is nowhere near the frames that are
mapped to themselves.

* `Hidden`: the state after a page of the heap has been mapped over the bitmap.
* `Aliased`: what `map_mem` changes from there on: the frame of that page and one entry of the PML4.
* `Hidden.mapMem_self`: mapping the address `2 ^ 39` to itself.
* `exists_hidden`: the page of the heap can be mapped when the frames that nobody has requested are
  zero.
* `prepareMem_leaves`: `prepare_mem` leaves them as they were at power-on.
* `not_framesReachable`: on a machine whose memory has a gap the tables do not stay reachable.
-/

namespace EtaOs

open ByteMemory IntLoop RadixTree Relation

variable {memMap : List EfiMemoryDescriptor} {root b f : BitVec 64} {s s' : Kernel}

/-! ## The bitmap is hidden -/

/-- A page at `w` that walks to `g`, along a path that does not begin with entry `1`. -/
structure Leads (root : BitVec 64) (m : Mem) (w g : BitVec 64) : Prop where
  page : IsFrame w
  walk : walk m root w = some g
  first : tableIndex w 3 ≠ 1

/-- The page of the bitmap, at `b`, leads to a frame `f` of zeros, which is the one where the scan
of `request_page` stands.  That frame and the PML4 are mapped to themselves, and entry `1` of the
PML4 is not present. -/
structure Hidden (root b f : BitVec 64) (s : Kernel) : Prop where
  cr3 : s.cr3 = some root
  frameRoot : IsFrame root
  frame : IsFrame f
  separated : Separated (edge s.mem) 3 root
  notTable : ¬ Table s.mem root f
  vacant : edge s.mem root 1 = none
  zero : ∀ x, (x - f).toNat < 4096 → s.mem x = 0
  buffer : s.alloc.pageBitmap.buffer = b
  hides : Leads root s.mem b f
  reachesRoot : Leads root s.mem root root
  reachesFrame : Leads root s.mem f f
  hint : f = s.alloc.pageBitmapIndex * 4096
  scanned : s.alloc.pageBitmapIndex < s.alloc.pageBitmap.size
  small : s.alloc.pageBitmap.size.toNat ≤ 2 ^ 15

/-- The memories agree outside the frame `f` and entry `1` of the PML4. -/
def SameBut (root f : BitVec 64) (m m' : Mem) : Prop :=
  ∀ x, ¬ (x - f).toNat < 4096 → ¬ (x - entryAddr root 1).toNat < 8 → m' x = m x

/-- What `map_mem` may have changed: the frame `f`, entry `1` of the PML4, the counters of the
allocator and the record. -/
structure Aliased (root f : BitVec 64) (s s' : Kernel) : Prop where
  cr3 : s'.cr3 = s.cr3
  pageBitmap : s'.alloc.pageBitmap = s.alloc.pageBitmap
  pageBitmapIndex : s'.alloc.pageBitmapIndex = s.alloc.pageBitmapIndex
  same : SameBut root f s.mem s'.mem

theorem Aliased.refl (root f : BitVec 64) (s : Kernel) : Aliased root f s s :=
  ⟨rfl, rfl, rfl, fun _ _ _ => rfl⟩

/-- Another change to the frame. -/
theorem Aliased.write (h : Aliased root f s s') {m' : Mem}
    (hm : ∀ x, ¬ (x - f).toNat < 4096 → m' x = s'.mem x) :
    Aliased root f s { s' with mem := m' } :=
  ⟨h.cr3, h.pageBitmap, h.pageBitmapIndex, fun x hx hx' => (hm x hx).trans (h.same x hx hx')⟩

namespace Hidden

/-- Entries other than that of the PML4 stay. -/
theorem edge_eq (h : Hidden root b f s) {m' : Mem} (hsame : SameBut root f s.mem m') {t : BitVec 64}
    {i : BitVec 9} (ht : Table s.mem root t) (hne : t ≠ root ∨ i ≠ 1) :
    edge m' t i = edge s.mem t i := by
  have hframe := isFrame_of_table h.frameRoot ht
  have hft : f ≠ t := by
    rintro rfl
    exact h.notTable ht
  have hrange := entryAddr_range t i
  have hapart := entry_apart (t := root) (i := 1) h.frameRoot hframe hne
  have hbytes : SameOn (entryAddr t i) 8 s.mem m' := by
    intro x hx
    refine hsame x ((h.frame.apart hframe hft).notMem ?_) (hapart.notMem hx)
    bv_omega
  rw [edge, edge, load64_congr hbytes]

/-- **Paths that do not begin with that entry stay.** -/
theorem descend_eq (h : Hidden root b f s) {m' : Mem} (hsame : SameBut root f s.mem m')
    {p : List (BitVec 9)} (hp : p.length ≤ 4) (hfirst : p.head? ≠ some 1) :
    descend (edge m') root p = descend (edge s.mem) root p := by
  induction p using List.reverseRecOn with
  | nil => rfl
  | append_singleton p i ih =>
      rw [List.length_append, List.length_singleton] at hp
      have hfirst' : p.head? ≠ some 1 := by
        intro hhead
        rw [List.head?_append, hhead] at hfirst
        exact hfirst rfl
      rw [descend_snoc, descend_snoc, ih (by omega) hfirst']
      cases hu : descend (edge s.mem) root p with
      | none => rfl
      | some u =>
          refine h.edge_eq hsame ⟨p, by omega, hu⟩ ?_
          -- the PML4 is the table of the empty path only
          by_contra hno
          rw [not_or, not_not, not_not] at hno
          obtain ⟨rfl, rfl⟩ := hno
          obtain rfl := h.separated p [] u (by omega) (by simp) hu rfl
          exact hfirst rfl

/-- A page that leads somewhere still leads there. -/
theorem phys_eq (h : Hidden root b f s) (ha : Aliased root f s s') {w g x : BitVec 64}
    (hw : Leads root s.mem w g) (hx : (x - w).toNat < 4096) : s'.phys x = some (g + (x - w)) := by
  refine phys_of_walk (ha.cr3.trans h.cr3) hw.page ?_ hx
  refine (h.descend_eq ha.same (by simp [pathOf]) ?_).trans hw.walk
  rw [pathOf, List.head?_cons]
  exact fun heq => hw.first (Option.some.inj heq)

/-- A page that is mapped to itself still is. -/
theorem direct (h : Hidden root b f s) (ha : Aliased root f s s') {w x : BitVec 64}
    (hw : Leads root s.mem w w) (hx : (x - w).toNat < 4096) : s'.Direct x := by
  rw [Machine.Direct, h.phys_eq ha hw hx, add_sub_cancel]

/-- The mark that a scan reads first lies in the frame. -/
theorem mark_lt (h : Hidden root b f s) (ha : Aliased root f s s') :
    (s'.alloc.pageBitmapIndex / 8).toNat < 4096 := by
  have hscanned : s.alloc.pageBitmapIndex.toNat < s.alloc.pageBitmap.size.toNat := h.scanned
  have hsmall := h.small
  rw [ha.pageBitmapIndex, BitVec.toNat_udiv, show (8 : BitVec 64).toNat = 8 from rfl]
  omega

theorem phys_mark (h : Hidden root b f s) (ha : Aliased root f s s') :
    s'.phys (s'.alloc.pageBitmap.buffer + s'.alloc.pageBitmapIndex / 8) =
      some (f + s'.alloc.pageBitmapIndex / 8) := by
  have hlt := h.mark_lt ha
  have hbuffer : s'.alloc.pageBitmap.buffer = b := by rw [ha.pageBitmap, h.buffer]
  rw [hbuffer, h.phys_eq ha h.hides (by rwa [add_sub_cancel_left]), add_sub_cancel_left]

/-- The mark passes the bound check of the bitmap. -/
theorem not_beyond (h : Hidden root b f s) (ha : Aliased root f s s') :
    ¬ s'.alloc.pageBitmapIndex > s'.alloc.pageBitmap.size * 8 := by
  have hscanned : s.alloc.pageBitmapIndex.toNat < s.alloc.pageBitmap.size.toNat := h.scanned
  have hsmall := h.small
  rw [ha.pageBitmap, ha.pageBitmapIndex]
  bv_omega

/-! ## Requests that find no mark -/

section Requests

variable (h : Hidden root b f s) (ha : Aliased root f s s')
  (hzero : ∀ x, (x - f).toNat < 4096 → s'.mem x = 0)

include h ha

/-- Setting the mark changes the frame only. -/
theorem setMark : ∃ m', (∀ x, ¬ (x - f).toNat < 4096 → m' x = s'.mem x) ∧
    Paged.set s' s'.alloc.pageBitmapIndex true = some (true, { s' with mem := m' }) := by
  have hin : (f + s'.alloc.pageBitmapIndex / 8 - f).toNat < 4096 := by
    rw [add_sub_cancel_left]
    exact h.mark_lt ha
  have hstored : ∀ (m : Mem) (v : BitVec 8), ∀ x, ¬ (x - f).toNat < 4096 →
      store8 m (f + s'.alloc.pageBitmapIndex / 8) v x = m x := by
    intro m v x hx
    refine if_neg ?_
    rintro rfl
    exact hx hin
  unfold Paged.set
  dsimp only
  rw [if_neg (h.not_beyond ha), Machine.load8, h.phys_mark ha, Option.map_some, Option.bind_some,
    Machine.store8, h.phys_mark ha, Option.map_some, Option.bind_some, if_pos rfl, Machine.load8]
  -- the pointer leads to the same byte after the first store
  have hphys := h.phys_mark (ha.write (hstored s'.mem
    (s'.mem (f + s'.alloc.pageBitmapIndex / 8) &&& ~~~Bitmap.bitIndexer s'.alloc.pageBitmapIndex)))
  rw [hphys, Option.map_some, Option.bind_some, Machine.store8, hphys, Option.map_some,
    Option.map_some]
  exact ⟨_, fun x hx => (hstored _ _ x hx).trans (hstored _ _ x hx), rfl⟩

include hzero

theorem getMark : Paged.get s' s'.alloc.pageBitmapIndex = some false := by
  have hbyte : s'.mem (f + s'.alloc.pageBitmapIndex / 8) = 0 :=
    hzero _ (by rw [add_sub_cancel_left]; exact h.mark_lt ha)
  unfold Paged.get
  dsimp only
  rw [if_neg (h.not_beyond ha), Machine.load8, h.phys_mark ha, Option.map_some, Option.map_some,
    hbyte]
  simp

/-- **The request returns the frame itself**, and puts its mark there. -/
theorem requestPage :
    ∃ t, Paged.requestPage s' = some (f, t) ∧ Aliased root f s t ∧ t.requests = s'.requests ∧
      ∀ x, ¬ (x - f).toNat < 4096 → t.mem x = s'.mem x := by
  obtain ⟨m', hm', hset⟩ := h.setMark ha
  have hscanned : s'.alloc.pageBitmapIndex < s'.alloc.pageBitmap.size := by
    rw [ha.pageBitmap, ha.pageBitmapIndex]
    exact h.scanned
  have hsize : s'.alloc.pageBitmap.size.toNat ≤ 2 ^ 15 := by
    rw [ha.pageBitmap]
    exact h.small
  have hindex : s'.alloc.pageBitmapIndex * 4096 / 4096 = s'.alloc.pageBitmapIndex :=
    BitVec.eq_of_toNat_eq (frameIndex_mul (by bv_omega))
  obtain ⟨fuel, hfuel⟩ : ∃ n, s'.alloc.pageBitmap.size.toNat = n + 1 :=
    ⟨s'.alloc.pageBitmap.size.toNat - 1, by bv_omega⟩
  have hlock : Paged.lockPage s' (s'.alloc.pageBitmapIndex * 4096) =
      some { s' with mem := m', alloc := s'.alloc.take .used } := by
    unfold Paged.lockPage
    dsimp only
    rw [hindex, h.getMark ha hzero, Option.bind_some, hset, Option.map_some]
    rfl
  refine ⟨{ s' with mem := m', alloc := s'.alloc.take .used }, ?_, ?_, rfl, hm'⟩
  · rw [Paged.requestPage, hfuel, Paged.requestLoop]
    dsimp only
    rw [if_pos hscanned, h.getMark ha hzero, Option.bind_some, hlock, h.hint, ← ha.pageBitmapIndex]
    rfl
  · obtain ⟨hcr3, hbitmap, hindex', hsame⟩ := ha.write hm'
    exact ⟨hcr3, hbitmap, hindex', hsame⟩

theorem requestFrame : ∃ t, s'.requestFrame globalAllocator = some (f, t) ∧ Aliased root f s t ∧
    (∀ r ∈ t.requests, r ∈ s'.requests ∨ r.frame = f) ∧
      ∀ x, ¬ (x - f).toNat < 4096 → t.mem x = s'.mem x := by
  obtain ⟨t, hrun, ⟨hcr3, hbitmap, hindex, hsame⟩, hrequests, hmem⟩ := h.requestPage ha hzero
  have hfaults : globalAllocator.faults s' = false := by
    show (Paged.requestPage s').isNone = false
    rw [hrun]
    rfl
  have hrequest : globalAllocator.request s' = (f, t) := by
    show (Paged.requestPage s').getD (0, s') = (f, t)
    rw [hrun]
    rfl
  refine ⟨{ t with requests := ⟨s'.mem, f, t.mem⟩ :: t.requests }, ?_,
    ⟨hcr3, hbitmap, hindex, hsame⟩, fun r hr => ?_, hmem⟩
  · rw [Machine.requestFrame_of_returns hfaults, Machine.takeFrame, hrequest]
  · rw [← hrequests]
    exact (List.mem_cons.mp hr).symm.imp_right fun heq => congrArg Request.frame heq

/-- **A vacant entry gets the frame as its table**, which is cleared once more. -/
theorem enterTable {u : BitVec 64} {i : BitVec 9} (hu : u = root ∧ i = 1 ∨ u = f)
    (hvacant : edge s'.mem u i = none) :
    ∃ e t, enterTable globalAllocator s' u (i.setWidth 64) = some (f, t) ∧ Aliased root f s t ∧
      t.mem = store64 s'.mem (entryAddr u i) e ∧ e.getLsbD 0 = true ∧
      e &&& 0x000ffffffffff000#64 = f ∧ ∀ r ∈ t.requests, r ∈ s'.requests ∨ r.frame = f := by
  have hlead : Leads root s.mem u u := by
    rcases hu with ⟨rfl, -⟩ | rfl
    · exact h.reachesRoot
    · exact h.reachesFrame
  have hrange := entryAddr_range u i
  have hload := (h.direct ha hlead (x := entryAddr u i) (by omega)).load64
  have hbit : (ByteMemory.load64 s'.mem (entryAddr u i)).getLsbD 0 = false := by
    by_contra hne
    rw [Bool.not_eq_false] at hne
    rw [edge, if_pos hne] at hvacant
    exact Option.some_ne_none _ hvacant
  obtain ⟨t, hrequest, hat, hrequests, hmem⟩ := h.requestFrame ha hzero
  -- clearing the frame wipes out the mark
  have hfill : fill t.mem f 4096 0 = s'.mem := by
    funext x
    unfold fill
    split
    next hx => exact (hzero x hx).symm
    next hx => exact hmem x hx
  have hmemset : memset t f 0 4096 = some { t with mem := s'.mem } := by
    rw [← hfill]
    refine memsetLoop_of_direct (by decide) fun j hj => ?_
    have hj' : j < 4096 := hj
    refine h.direct (hat.write fun x hx => if_neg fun hlt => hx (by omega)) h.reachesFrame ?_
    rw [add_sub_cancel_left, BitVec.toNat_ofNat]
    omega
  have hback : Aliased root f s { t with mem := s'.mem } := hat.write fun x hx => (hmem x hx).symm
  let e := (mappedEntry ⟨ByteMemory.load64 s'.mem (entryAddr u i)⟩ (f >>> 12)).value
  have hstore := (h.direct hback hlead (x := entryAddr u i) (by omega)).store64 e
  refine ⟨e, { t with mem := store64 s'.mem (entryAddr u i) e }, ?_,
    ⟨hat.cr3, hat.pageBitmap, hat.pageBitmapIndex, fun x hx hx' => ?_⟩, rfl,
    mappedEntry_present _ _, (mappedEntry_address _ _).trans h.frame.frameOf, hrequests⟩
  · rw [entryAddr] at hload hstore hbit
    rw [EtaOs.enterTable, hload, Option.bind_some]
    simp only [getFlag_present, hbit, Bool.not_false, if_true]
    rw [hrequest, Option.bind_some, hmemset, Option.bind_some, ← mappedEntry]
    exact congrArg _ hstore
  · refine Eq.trans (if_neg ?_) (ha.same x hx hx')
    rcases hu with ⟨rfl, rfl⟩ | rfl
    · exact hx'
    · bv_omega

end Requests

/-- **Mapping `2 ^ 39` to itself** takes the frame for all tables it needs, and puts the page where
a table is looked for. -/
theorem mapMem_self (h : Hidden root b f s) :
    ∃ t, PageTableManager.mapMem globalAllocator ⟨root⟩ s 0x8000000000 0x8000000000 = some t ∧
      SameBut root f s.mem t.mem ∧ descend (edge t.mem) root [1, 0] = some 0x8000000000 ∧
      ∀ r ∈ t.requests, r ∈ s.requests ∨ r.frame = f := by
  have hne : root ≠ f := by
    rintro rfl
    exact h.notTable (isTable_root _ _ _)
  -- the first table is linked in the PML4
  obtain ⟨e₁, s₁, h1, ha₁, hm₁, hpresent₁, haddr₁, hr₁⟩ :=
    h.enterTable (Aliased.refl root f s) h.zero (i := 1) (Or.inl ⟨rfl, rfl⟩) h.vacant
  have hzero₁ : ∀ x, (x - f).toNat < 4096 → s₁.mem x = 0 := by
    intro x hx
    have hrange := entryAddr_range root 1
    rw [hm₁]
    refine Eq.trans (if_neg fun hlt => ?_) (h.zero x hx)
    exact (h.frame.apart h.frameRoot hne.symm).notMem (x := x) (by bv_omega) hx
  -- the second one in itself
  obtain ⟨e₂, s₂, h2, ha₂, hm₂, hpresent₂, haddr₂, hr₂⟩ :=
    h.enterTable ha₁ hzero₁ (i := 0) (Or.inr rfl) (edge_eq_none_of_zero hzero₁ 0)
  have hrange := entryAddr_range f 0
  have hedge₂ : edge s₂.mem f 0 = some f := by rw [hm₂, edge_store64 hpresent₂, haddr₂]
  have hdirect : s₂.Direct (entryAddr f 0) := h.direct ha₂ h.reachesFrame (by omega)
  have h3 : EtaOs.enterTable globalAllocator s₂ f ((0 : BitVec 9).setWidth 64) = some (f, s₂) :=
    enterTable_of_direct hdirect hedge₂
  obtain ⟨e₃, h4, hpresent₃, haddr₃⟩ := setPage_of_phys hdirect 0x8000000000
  refine ⟨{ s₂ with mem := store64 s₂.mem (entryAddr f 0) e₃ }, ?_, ?_, ?_, fun r hr => ?_⟩
  · unfold PageTableManager.mapMem
    dsimp only
    rw [pdpI_ofAddr, pdI_ofAddr, ptI_ofAddr, pI_ofAddr,
      show tableIndex 0x8000000000 3 = 1 by decide, show tableIndex 0x8000000000 2 = 0 by decide,
      show tableIndex 0x8000000000 1 = 0 by decide, show tableIndex 0x8000000000 0 = 0 by decide,
      h1, Option.bind_some, h2, Option.bind_some, h3, Option.bind_some, h4]
  · exact (ha₂.write fun x hx => if_neg (by bv_omega)).same
  · have hroot : edge (store64 s₂.mem (entryAddr f 0) e₃) root 1 = some f := by
      rw [edge_store64_of_ne h.frame h.frameRoot (Or.inl hne), hm₂,
        edge_store64_of_ne h.frame h.frameRoot (Or.inl hne), hm₁, edge_store64 hpresent₁, haddr₁]
    rw [descend_cons, hroot, Option.bind_some, descend_cons, edge_store64 hpresent₃, haddr₃,
      Option.bind_some, descend_nil]
    decide
  · exact (hr₂ r hr).elim (hr₁ r) Or.inr

/-- **That table is not mapped to itself**, when its memory is zero. -/
theorem walk_self (h : Hidden root b f s) {m' : Mem} (hsame : SameBut root f s.mem m')
    (htable : descend (edge m') root [1, 0] = some 0x8000000000)
    (hzero : ∀ x, (x - 0x8000000000).toNat < 4096 → s.mem x = 0) :
    walk m' root 0x8000000000 = none := by
  have hfirst : tableIndex 0x8000000000 3 = 1 := by decide
  have hpage : IsFrame 0x8000000000 := ⟨by decide, by decide⟩
  have hne : f ≠ 0x8000000000 := by
    rintro rfl
    exact h.reachesFrame.first hfirst
  have hne' : root ≠ 0x8000000000 := by
    rintro rfl
    exact h.reachesRoot.first hfirst
  have hrange := entryAddr_range root 1
  have hzero' : ∀ x, (x - 0x8000000000).toNat < 4096 → m' x = 0 := by
    intro x hx
    refine (hsame x ((h.frame.apart hpage hne).notMem hx) fun hlt => ?_).trans (hzero x hx)
    exact (h.frameRoot.apart hpage hne').notMem hx (by bv_omega)
  have hpath : pathOf 0x8000000000 = [1, 0] ++ [0] ++ [0] := by decide
  rw [walk, hpath, descend_snoc, descend_snoc, htable, Option.bind_some,
    edge_eq_none_of_zero hzero', Option.bind_none]

end Hidden

/-! ## Hiding the bitmap -/

/-- The bitmap lies above the memory that is mapped to itself, in a page that is mapped to itself
all the same.  There is little memory, and entry `1` of the PML4 is not present. -/
structure BitmapAbove (memMap : List EfiMemoryDescriptor) (root b : BitVec 64) (s : Kernel) :
    Prop extends LoadedInv memMap root s where
  buffer : (initialBitmap memMap).buffer = b
  self : Leads root s.mem b b
  above : 4096 * totalFrames memMap ≤ b.toNat
  below : b.toNat < 2 ^ 48
  few : totalFrames memMap ≤ 2 ^ 17
  vacant : edge s.mem root 1 = none

/-- A frame of memory is mapped to itself. -/
theorem LoadedInv.leads (h : LoadedInv memMap root s) (hfew : totalFrames memMap ≤ 2 ^ 17)
    {g : BitVec 64} (hg : IsFrame g) (hlt : frameIndex g < totalFrames memMap) :
    Leads root s.mem g g := by
  refine ⟨hg, h.walk_frame hg hlt, fun hfirst => ?_⟩
  have hindex := congrArg BitVec.toNat hfirst
  rw [tableIndex_toNat] at hindex
  rw [frameIndex_eq] at hlt
  simp at hindex
  omega

section Hiding

variable (hwf : WellFormedMap memMap) (hpages : 1 ≤ totalFrames memMap) (hroot : IsFrame root)

include hwf hpages hroot

/-- **A page of the heap can be mapped over the bitmap**, which is found for the request of its
frame, and hides it when that frame is zero. -/
theorem exists_hidden (h : BitmapAbove memMap root b s)
    (hOk : Granted memMap (nextRequest bootAllocator s))
    (hzero : ∀ x, (x - (requestPage s).1).toNat < 4096 → s.mem x = 0) :
    ∃ t, mapHeapPage ⟨root⟩ s b = some t ∧ Hidden root b (requestPage s).1 t ∧
      SameFar memMap s.mem t.mem ∧ ∀ r ∈ t.requests, r = nextRequest bootAllocator s ∨
        r ∈ s.requests := by
  have hfew := h.few
  have hbytes := initialBitmap_size memMap
  have hsize : (totalMem memMap).toNat ≤ 2 ^ 48 := by
    unfold totalFrames at hfew
    have hmod := totalMem_mod memMap
    omega
  have hdirect : BitmapDirect s := by
    refine h.tables.bitmapDirect hwf hroot h.cr3 (by omega) fun index hindex => ?_
    refine direct_of_walk h.cr3 h.self.page h.self.walk ?_
    rw [h.buffer, add_sub_cancel_left, BitVec.toNat_udiv, show (8 : BitVec 64).toNat = 8 from rfl]
    omega
  have hsame := h.tables.sameOn_requestPage hwf hroot hOk
  have htaken := h.toLoadedInv.takeFrame hwf hroot hOk
  have hheld := Held.of_request hwf hroot h.tables hOk
  obtain ⟨hframe, -, -, hnot⟩ := h.tables.alloc.request_frame hOk
  -- the tables above the page are there already
  obtain ⟨leaf, hleaf⟩ : ∃ leaf, descend (edge (s.takeFrame bootAllocator).2.mem) root
      [tableIndex b 3, tableIndex b 2, tableIndex b 1] = some leaf := by
    have hwalk := (walk_congr hsame b).trans h.self.walk
    obtain ⟨leaf, hleaf, -⟩ := Option.bind_eq_some_iff.mp
      ((descend_snoc (edge (requestPage s).2.mem) root
        [tableIndex b 3, tableIndex b 2, tableIndex b 1] (tableIndex b 0)).symm.trans hwalk)
    exact ⟨leaf, hleaf⟩
  have hentry : ∀ u i, Table (s.takeFrame bootAllocator).2.mem root u →
      (s.takeFrame bootAllocator).2.Direct (entryAddr u i) := by
    intro u i hu
    have hrange := entryAddr_range u i
    exact direct_of_walk htaken.cr3 (isFrame_of_table hroot hu)
      (htaken.walk_table hpages hroot hu) (by omega)
  obtain ⟨e, hset, hpresent, haddr⟩ :=
    setPage_of_phys (hentry leaf (tableIndex b 0) ⟨_, by simp, hleaf⟩) (requestPage s).1
  have hmap : mapHeapPage ⟨root⟩ s b =
      setPage (s.takeFrame bootAllocator).2 leaf ((tableIndex b 0).setWidth 64)
        (requestPage s).1 := by
    rw [mapHeapPage, requestFrame_of_direct hdirect, Option.bind_some]
    exact mapMem_of_present hleaf fun pre u i hlen hu => hentry u i ⟨pre, by omega, hu⟩
  have hlink := link_of_leaf (m := (s.takeFrame bootAllocator).2.mem) (i := tableIndex b 0) hroot
    hleaf (by simp) hpresent haddr
  have hloaded := htaken.linkPage hwf hroot hsize ⟨h.below, Or.inr h.above⟩ hlink
  have hheld' := hheld.linkPage hwf hroot htaken.tables rfl hlink
  have hhides : walk (linkPage (s.takeFrame bootAllocator).2 leaf (tableIndex b 0) e).mem root b =
      some (requestPage s).1 := by
    have hself : SamePage b b := rfl
    refine (walk_leaf hlink htaken.tables.separated b).trans ((if_pos hself).trans ?_)
    rw [hframe.frameOf]
  have hrootTable : Table s.mem root root := isTable_root _ _ _
  have hreach := reach_le_totalFrames hpages
  have hindex := requestPage_pageBitmapIndex h.tables.alloc.hint hOk.1
  have hbitmap := hloaded.tables.alloc.bitmap
  have hlt : frameIndex (requestPage s).1 < reach memMap := hOk.2
  have hsizeReach : reach memMap ≤ (initialBitmap memMap).size.toNat := Nat.min_le_left _ _
  refine ⟨linkPage (s.takeFrame bootAllocator).2 leaf (tableIndex b 0) e, hmap.trans hset, ?_, ?_,
    fun r hr => ?_⟩
  · refine { cr3 := hloaded.cr3, frameRoot := hroot, frame := hframe,
             separated := hloaded.tables.separated, notTable := hheld'.notTable,
             hides := ⟨h.self.page, hhides, h.self.first⟩,
             reachesRoot := hloaded.leads hfew hroot
               (lt_of_lt_of_le (h.tables.tables root hrootTable).1 hreach),
             reachesFrame := hloaded.leads hfew hframe (lt_of_lt_of_le hOk.2 hreach),
             vacant := ?_, zero := fun x hx => ?_, buffer := hbitmap ▸ h.buffer,
             hint := ?_, scanned := ?_, small := ?_ }
    · have hne : root ≠ leaf := by
        rintro rfl
        exact absurd (htaken.tables.separated _ [] root (by simp) (by simp) hleaf rfl) (by simp)
      refine (hlink.other root 1 (isTable_root _ _ _) (Or.inl hne)).trans ?_
      exact (edge_congr (hsame root hrootTable) 1).trans h.vacant
    · exact (hheld'.same x hx).trans ((Held.sameOn_requestPage hwf h.tables.alloc hOk hframe hnot
        x hx).trans (hzero x hx))
    · obtain ⟨haligned, -⟩ := hframe
      rw [frameIndex_eq] at hindex
      refine BitVec.eq_of_toNat_eq ?_
      rw [BitVec.toNat_mul, show (4096 : BitVec 64).toNat = 4096 from rfl]
      show (requestPage s).1.toNat = (requestPage s).2.alloc.pageBitmapIndex.toNat * 4096 % 2 ^ 64
      omega
    · show (requestPage s).2.alloc.pageBitmapIndex.toNat < _
      rw [hbitmap]
      omega
    · rw [hbitmap]
      omega
  · exact (SameFar.requestPage hwf h.tables.alloc hOk).trans (SameFar.storeEntry
      (isFrame_of_descend hroot hleaf) (htaken.tables.tables leaf ⟨_, by simp, hleaf⟩).1 _ e)
  · exact List.mem_cons.mp ((Machine.takeFrame_requests bootAllocator s) ▸ hr)

end Hiding

/-! ## Frames that nobody has requested -/

/-- The frames that are not marked, and those beyond the reach of the allocator, have the contents
that they have in `m`, but for those of the bitmap. -/
def Untouched (memMap : List EfiMemoryDescriptor) (m : Mem) (s : Kernel) : Prop :=
  ∀ g, IsFrame g → ¬ BitmapFrame memMap (frameIndex g) →
    (frameIndex g < reach memMap → s.marked (frameIndex g) = false) → SameOn g 4096 m s.mem

variable {m : Mem}

/-- A change that takes no mark away and writes to no frame that is left unmarked. -/
theorem Untouched.step (h : Untouched memMap m s)
    (hmark : ∀ k < reach memMap, s.marked k = true → s'.marked k = true)
    (hsame : ∀ g, IsFrame g → ¬ BitmapFrame memMap (frameIndex g) →
      (frameIndex g < reach memMap → s'.marked (frameIndex g) = false) →
        SameOn g 4096 s.mem s'.mem) : Untouched memMap m s' := by
  intro g hg hnot hfree
  refine (h g hg hnot fun hlt => ?_).trans (hsame g hg hnot hfree)
  rw [← Bool.not_eq_true]
  intro hmarked
  exact absurd ((hmark _ hlt hmarked).symm.trans (hfree hlt)) (by decide)

/-- A table is no such frame. -/
theorem TablesInv.apart_unmarked (hroot : IsFrame root) (h : TablesInv memMap root s)
    {t g : BitVec 64} (ht : Table s.mem root t) (hg : IsFrame g)
    (hfree : frameIndex g < reach memMap → s.marked (frameIndex g) = false) :
    Apart t 4096 g 4096 := by
  refine (isFrame_of_table hroot ht).apart hg ?_
  rintro rfl
  obtain ⟨hlt, hmark, -⟩ := h.tables t ht
  exact absurd (hmark.symm.trans (hfree hlt)) (by decide)

/-- **`map_mem` leaves the frames that nobody has requested.** -/
theorem mapInv_untouched {I : Kernel → Prop} {Allowed : BitVec 64 → BitVec 64 → Prop}
    (hwf : WellFormedMap memMap) (hM : MapInv bootAllocator root I (Granted memMap) Allowed)
    (htables : ∀ s, I s → TablesInv memMap root s) :
    MapInv bootAllocator root (fun s => I s ∧ Untouched memMap m s) (Granted memMap) Allowed := by
  refine hM.and ?_ ?_
  · intro s v p pre t i e hI hleft hOk _ _ hdepth hlink
    have hs := htables s hI
    have ht : Table s.mem root t := ⟨pre, by omega, hlink.reach⟩
    obtain ⟨hs', hmark⟩ := hs.linkTable hwf hM.frame hOk hdepth hlink
    refine hleft.step (fun k hk hm => ?_) fun g hg hnot hfree => ?_
    · exact (hmark k hk).trans
        ((marked_requestPage hs.alloc.hint (hs.alloc.le_last hk)).mpr (Or.inl hm))
    · have hnew := hs'.apart_unmarked hM.frame
        ((hlink.isTable_iff hs.separated).mpr (Or.inr ⟨hdepth, rfl⟩)) hg hfree
      have hold := hs'.apart_unmarked hM.frame
        ((hlink.isTable_iff hs.separated).mpr (Or.inl ht)) hg hfree
      refine ((Held.sameOn_requestPage hwf hs.alloc hOk hg hnot).trans
        (sameOn_fill 0 hnew)).trans (sameOn_store64 e ?_)
      exact hold.mono (entryAddr_range t i) (by simp) (by decide) (by decide)
  · intro s v p t e hI hleft _ hlink
    have hs := htables s hI
    have ht : Table s.mem root t := ⟨_, le_rfl, hlink.reach⟩
    obtain ⟨hs', hmark⟩ := hs.linkPage hwf hM.frame rfl hlink
    refine hleft.step (fun k hk hm => (hmark k hk).trans hm) fun g hg _ hfree => ?_
    have hold := hs'.apart_unmarked hM.frame
      ((hlink.isTable_iff hs.separated).mpr (Or.inl ht)) hg hfree
    refine sameOn_store64 e ?_
    exact hold.mono (entryAddr_range t _) (by simp) (by decide) (by decide)

/-- **An entry of the PML4 stays vacant** when no address is mapped that begins with it. -/
theorem mapInv_vacant {I : Kernel → Prop} {Ok : Request → Prop}
    {Allowed : BitVec 64 → BitVec 64 → Prop} {first : BitVec 9}
    (hM : MapInv bootAllocator root I Ok Allowed)
    (hfirst : ∀ v p, Allowed v p → tableIndex v 3 ≠ first) :
    MapInv bootAllocator root (fun s => I s ∧ edge s.mem root first = none) Ok Allowed := by
  refine hM.and ?_ ?_
  · intro s v p pre t i e hI hvacant _ ha hpath hdepth hlink
    refine (hlink.other root first (isTable_root _ _ _) ?_).trans hvacant
    by_contra hno
    rw [not_or, not_not, not_not] at hno
    obtain ⟨rfl, rfl⟩ := hno
    obtain rfl := hM.separated s hI pre [] root (by omega) (by simp) hlink.reach rfl
    obtain ⟨rest, hrest⟩ := hpath
    exact hfirst v p ha (List.cons.inj hrest).1.symm
  · intro s v p t e hI hvacant _ hlink
    refine (hlink.other root first (isTable_root _ _ _) (Or.inl ?_)).trans hvacant
    rintro rfl
    exact absurd (hM.separated s hI _ [] root (by simp) (by simp) hlink.reach rfl) (by simp)

section Boot

variable {info : BootInfo}

/-- **What `prepare_mem` leaves**: the frames that nobody has requested, and the entries of the PML4
for addresses that it does not map. -/
theorem prepareMem_leaves {first : BitVec 9} (hwf : WellFormedMap info.memMap)
    (hfb : FrameBufInReach info) (hsize : (totalMem info.memMap).toNat ≤ 2 ^ 44)
    (hfirst : ∀ i, Visited 0 (totalMem info.memMap) i ∨
      Visited info.baseAdress (frameBufEnd info) i → tableIndex i 3 ≠ first)
    (hrun : prepareMem (bootKernel m) info = some s)
    (hOk : ∀ r ∈ s.requests, Granted info.memMap r) :
    Untouched info.memMap m s ∧ edge s.mem (pml4 m info) first = none := by
  have hpml4 := hOk _ (mem_requests_pml4 hrun)
  have htables := tablesInv_clearedPml4 hwf hpml4
  have hroot := ((allocInv_beforePaging m info).request_frame hpml4).1
  have hstart : Untouched info.memMap m (clearedPml4 m info) := by
    intro g hg hnot hfree
    refine sameOn_clearedPml4 hwf hsize hpml4 hg hnot ?_
    rintro rfl
    obtain ⟨hlt, hmark, -⟩ := htables.tables _ (isTable_root _ _ _)
    exact absurd (hmark.symm.trans (hfree hlt)) (by decide)
  have hboot : MapInv bootAllocator (pml4 m info)
      (fun s => TablesInv info.memMap (pml4 m info) s ∧ s.cr3 = none) (Granted info.memMap)
      fun v _ => tableIndex v 3 ≠ first := (mapInv_boot hwf hroot).mono fun _ _ _ => trivial
  have hM := mapInv_vacant (mapInv_untouched (m := m) hwf hboot fun _ hI => hI.1)
    fun _ _ ha => ha
  obtain ⟨s₂, ⟨⟨-, hleft⟩, hvacant⟩, rfl, -⟩ := prepareMem_run hM
    ⟨⟨⟨htables, clearedPml4_cr3 m info⟩, hstart⟩, edge_clearedPml4 m info first⟩
    (fun s hs => by
      have hlocked := hs.1.1.1.lockPages hwf hroot hfb
      have hsame := hs.1.1.1.sameOn_lockPages hwf hroot hfb
      refine ⟨⟨⟨⟨hlocked, (keeps_lockFrameBuffer info s).cr3.trans hs.1.1.2⟩, ?_⟩, ?_⟩,
        walk_congr hsame⟩
      · refine hs.1.2.step (fun k hk hm => ?_) fun g hg hnot _ =>
          sameOn_lockFrameBuffer hwf hfb hs.1.1.1.alloc hg hnot
        exact (marked_forPages_takePage (hs.1.1.1.alloc.le_last hk)).mpr (Or.inl hm)
      · exact (edge_congr (hsame _ (isTable_root _ _ _)) first).trans hs.2)
    (fun i hi => hfirst i (Or.inl hi)) (fun i hi => hfirst i (Or.inr hi)) hrun hOk
  exact ⟨hleft, hvacant⟩

end Boot

/-! ## On a machine whose memory has a gap -/

/-- **The tables do not stay reachable** when the bitmap is above the memory that is mapped to
itself: with a page of the heap over it, mapping `2 ^ 39` to itself makes a table of that address,
which is not mapped. -/
theorem not_framesReachable : ¬ ∀ (m : Mem) (info : BootInfo) (s t : Kernel),
    WellFormedMap info.memMap → HoldsBitmap info.memMap → 1 ≤ totalFrames info.memMap →
      (totalMem info.memMap).toNat ≤ 2 ^ 44 →
      (∀ x, Visited info.baseAdress (frameBufEnd info) x → x.toNat < 2 ^ 48) →
      prepareMem (bootKernel m) info = some s → ReflTransGen (KernelStep ⟨pml4 m info⟩) s t →
      (∀ r ∈ t.requests, r.frame ≠ 0) → FramesReachable (pml4 m info) t := by
  intro hclaim
  have hwf := splitMemory_wellFormed
  have hfb := frameBufInReach_splitMemory
  have htotal : (totalMem splitMemory.memMap).toNat = 0x3000000 := by
    rw [totalMem_splitMemory]
    rfl
  have hframes := totalFrames_splitMemory
  obtain ⟨s, hprepare, hsupply⟩ := prepareMem_splitMemory fun _ => 0
  obtain ⟨hpages, hroot, -, hloaded⟩ := loadedInv_of_ne_zero hwf hfb (by omega)
    visited_splitMemory_lt hprepare fun r hr => (hsupply.tables.given r hr).2.1
  have hgranted := hsupply.granted
  obtain ⟨-, -, -, hwalk⟩ := prepareMem_tables hwf hfb hprepare
    fun r hr => (hsupply.tables.given r hr).2
  obtain ⟨hleft, hvacant⟩ := prepareMem_leaves hwf hfb (by omega)
    (fun _ => tableIndex_splitMemory) hprepare fun r hr => (hsupply.tables.given r hr).2
  -- the loop over the framebuffer maps the page of the bitmap
  have hself : walk s.mem (pml4 (fun _ => 0) splitMemory) 0x100000000000 = some 0x100000000000 := by
    have hpage : pageAddress (2 ^ 32) = 0x100000000000 := by decide
    have hvisited : Visited splitMemory.baseAdress (frameBufEnd splitMemory) 0x100000000000 :=
      ⟨by decide, by decide, by rw [frameBufEnd_splitMemory]; decide⟩
    have hmapped := (mappedToItself_iff_of_lt (by omega) visited_splitMemory_lt (k := 2 ^ 32)
      (by decide)).mpr (Or.inr ⟨_, hvisited, by decide⟩)
    rw [← hpage]
    exact (hwalk _ _).mpr hmapped
  have habove : BitmapAbove splitMemory.memMap (pml4 (fun _ => 0) splitMemory) 0x100000000000 s :=
    { hloaded with
      buffer := by rw [initialBitmap_splitMemory]
      self := ⟨⟨by decide, by decide⟩, hself, by decide⟩
      above := by rw [hframes]; decide
      below := by decide
      few := by omega
      vacant := hvacant }
  obtain ⟨hframe, hfree, -, hnot⟩ := hsupply.tables.alloc.request_frame hgranted
  obtain ⟨s₁, hmap₁, hhidden, hfar, hrequests₁⟩ := exists_hidden hwf hpages hroot habove hgranted
    (hleft _ hframe hnot fun _ => hfree)
  obtain ⟨t, hmap₂, hsame, htable, hrequests₂⟩ := hhidden.mapMem_self
  have htarget : ∀ x, (x - 0x8000000000).toNat < 4096 → s₁.mem x = 0 := by
    have hpage : IsFrame 0x8000000000 := ⟨by decide, by decide⟩
    have hbeyond : reach splitMemory.memMap ≤ frameIndex 0x8000000000 := by
      rw [reach_splitMemory]
      decide
    have hapart : ¬ BitmapFrame splitMemory.memMap (frameIndex 0x8000000000) :=
      fun h => absurd (bitmapFrame_splitMemory h) (by decide)
    intro x hx
    exact (hfar _ hpage hbeyond hapart x hx).trans
      (hleft _ hpage hapart (fun hlt => absurd hlt (Nat.not_lt.mpr hbeyond)) x hx)
  have hreachable := hclaim (fun _ => 0) splitMemory s t hwf holdsBitmap_splitMemory hpages
    (by omega) visited_splitMemory_lt hprepare
    ((ReflTransGen.single (KernelStep.heapPage s s₁ 0x100000000000 (by decide) (by decide)
      hmap₁)).tail (KernelStep.identity s₁ t 0x8000000000 (by decide) hmap₂)) fun r hr => by
    rcases hrequests₂ r hr with hr | heq
    · rcases hrequests₁ r hr with rfl | hr
      · exact hgranted.1
      · exact (hsupply.tables.given r hr).2.1
    · rw [heq]
      exact hgranted.1
  have hnone := hhidden.walk_self hsame htable htarget
  have hsome := (hreachable.tables 0x8000000000 ⟨_, by simp, htable⟩).1
  exact Option.some_ne_none _ (hsome.symm.trans hnone)

end EtaOs
