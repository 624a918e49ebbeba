import EtaOs.Boot.Reachable
import EtaOs.KernelHeap.Moves

/-!
# The pages of the heap

The heap maps one new frame behind the other.  Between two pages `map_mem` takes frames for
its tables from the same allocator, so the frames behind the pages and the tables have to be
kept apart through the calls of `request_page` of both.  What keeps them apart is the bitmap:
a frame behind a page is marked, and a frame that a request returns is not marked before it.

What holds of one page at a time would not do.  The request for a page may be answered with a frame
that the tables of an earlier page need, unless the earlier frames are known to be marked; so all
pages mapped so far are carried along with the frames behind them.

* `Held`: a frame that is marked, is not a table, and keeps its contents.
* `mapInv_held`: `map_mem` keeps the frames that are held.
* `HeapPages`: the first `n` pages from `a` on are present, and the frames behind them are
  held and all different.
* `HeapPages.mapHeapPage`: mapping the next page.
* `HeapPages.write`: writing to a frame behind a page.
-/

namespace EtaOs

open ByteMemory RadixTree

variable {memMap : List EfiMemoryDescriptor} {root f : BitVec 64} {m : Mem} {s : Kernel}

/-- A marked frame within reach that is not a table, holds no part of the bitmap, and has the
contents it has in `m`. -/
structure Held (memMap : List EfiMemoryDescriptor) (root : BitVec 64) (m : Mem) (f : BitVec 64)
    (s : Kernel) : Prop where
  frame : IsFrame f
  inReach : frameIndex f < reach memMap
  marked : s.marked (frameIndex f) = true
  notTable : ¬ Table s.mem root f
  notBitmap : ¬ BitmapFrame memMap (frameIndex f)
  same : SameOn f 4096 m s.mem

/-- **Writing to a frame that is neither a table nor a part of the bitmap** changes no table and no
mark. -/
theorem TablesInv.write (hwf : WellFormedMap memMap) (hroot : IsFrame root)
    (h : TablesInv memMap root s) (hf : IsFrame f) (htable : ¬ Table s.mem root f)
    (hnot : ¬ BitmapFrame memMap (frameIndex f)) {m' : Mem}
    (hmem : ∀ x, ¬ (x - f).toNat < 4096 → m' x = s.mem x) :
    TablesInv memMap root { s with mem := m' } ∧
      (∀ t, Table s.mem root t → SameOn t 4096 s.mem m') ∧
      ∀ k < reach memMap, Machine.marked { s with mem := m' } k = s.marked k := by
  have hsame : ∀ t, Table s.mem root t → SameOn t 4096 s.mem m' := by
    intro t ht x hx
    have hne : f ≠ t := by
      rintro rfl
      exact htable ht
    exact hmem x ((hf.apart (isFrame_of_table hroot ht) hne).notMem hx)
  obtain ⟨halloc, hmark⟩ := TablesInv.alloc_of_write hwf { s with mem := m' } h.alloc hf hf hnot
    hnot rfl fun x hx _ => hmem x hx
  exact ⟨h.of_sameOn halloc hsame rfl fun k hk hm => (hmark k hk).trans hm, hsame, hmark⟩

namespace Held

/-- The tables share no byte with a frame that is held. -/
theorem apart_table (hroot : IsFrame root) (h : Held memMap root m f s) {t : BitVec 64}
    (ht : Table s.mem root t) : Apart t 4096 f 4096 := by
  refine (isFrame_of_table hroot ht).apart h.frame ?_
  rintro rfl
  exact h.notTable ht

/-- A frame stays held where the tables and the marks stay, with the contents it has then. -/
theorem of_sameOn (h : Held memMap root m f s) {m' : Mem}
    (hsame : ∀ t, Table s.mem root t → SameOn t 4096 s.mem m')
    (hmark : ∀ k < reach memMap, Machine.marked { s with mem := m' } k = s.marked k) :
    Held memMap root m' f { s with mem := m' } where
  frame := h.frame
  inReach := h.inReach
  marked := (hmark _ h.inReach).trans h.marked
  notTable := fun ht => h.notTable ((table_congr hsame f).mp ht)
  notBitmap := h.notBitmap
  same := SameOn.refl _ _ _

variable (hwf : WellFormedMap memMap) (hroot : IsFrame root)

include hwf

/-- A request writes a mark, and no mark is stored in a frame that is held. -/
theorem sameOn_requestPage (hs : AllocInv memMap s)
    (hOk : Granted memMap (nextRequest bootAllocator s)) (hf : IsFrame f)
    (hnot : ¬ BitmapFrame memMap (frameIndex f)) : SameOn f 4096 s.mem (requestPage s).2.mem := by
  intro x hx
  refine requestPage_mem hs.hint ?_
  rintro rfl
  rw [hs.bitmap] at hx
  exact byteAddr_notMem hwf hf hnot (hs.last ▸ hs.le_last hOk.2)
    (lt_of_lt_of_le hOk.2 (Nat.min_le_right _ _)) hx

include hroot

theorem takeFrame (hs : TablesInv memMap root s)
    (hOk : Granted memMap (nextRequest bootAllocator s)) (h : Held memMap root m f s) :
    Held memMap root m f (s.takeFrame bootAllocator).2 where
  frame := h.frame
  inReach := h.inReach
  marked := (marked_requestPage hs.alloc.hint (hs.alloc.le_last h.inReach)).mpr (Or.inl h.marked)
  notTable := fun ht =>
    h.notTable ((table_congr (hs.sameOn_requestPage hwf hroot hOk) f).mp ht)
  notBitmap := h.notBitmap
  same := h.same.trans (sameOn_requestPage hwf hs.alloc hOk h.frame h.notBitmap)

/-- A frame that a request has returned is held. -/
theorem of_request (hs : TablesInv memMap root s)
    (hOk : Granted memMap (nextRequest bootAllocator s)) :
    Held memMap root (requestPage s).2.mem (requestPage s).1 (s.takeFrame bootAllocator).2 := by
  obtain ⟨hframe, hfree, hmarked, hnot⟩ := hs.alloc.request_frame hOk
  refine ⟨hframe, hOk.2, hmarked, fun ht => ?_, hnot, SameOn.refl _ _ _⟩
  have htable := (table_congr (hs.sameOn_requestPage hwf hroot hOk) _).mp ht
  exact absurd ((hs.tables _ htable).2.1.symm.trans hfree) (by decide)

/-- The frame that is linked as a table was not marked, so it is none of those held. -/
theorem linkTable (hs : TablesInv memMap root s)
    (hOk : Granted memMap (nextRequest bootAllocator s)) {pre : List (BitVec 9)} {t e : BitVec 64}
    {i : BitVec 9} (hdepth : pre.length < 3)
    (hlink : Link (edge s.mem) (edge (linkTable (s.takeFrame bootAllocator).2 t i
      (requestPage s).1 e).mem) 3 root pre t i (requestPage s).1) (h : Held memMap root m f s) :
    Held memMap root m f (linkTable (s.takeFrame bootAllocator).2 t i (requestPage s).1 e) := by
  obtain ⟨hframe, hfree, -, -⟩ := hs.alloc.request_frame hOk
  obtain ⟨-, hmark⟩ := hs.linkTable hwf hroot hOk hdepth hlink
  have hne : (requestPage s).1 ≠ f := by
    rintro rfl
    exact absurd (h.marked.symm.trans hfree) (by decide)
  have htable : Table s.mem root t := ⟨pre, by omega, hlink.reach⟩
  have htaken := h.takeFrame hwf hroot hs hOk
  refine ⟨h.frame, h.inReach, ?_, fun ht => ?_, h.notBitmap, ?_⟩
  · rw [hmark _ h.inReach]
    exact htaken.marked
  · rcases (hlink.isTable_iff hs.separated).mp ht with ht | ⟨-, heq⟩
    · exact h.notTable ht
    · exact hne heq.symm
  · refine (htaken.same.trans (sameOn_fill 0 (hframe.apart h.frame hne))).trans
      (sameOn_store64 e ?_)
    exact (h.apart_table hroot htable).mono (entryAddr_range t i) (by simp) (by decide)
      (by decide)

theorem linkPage (hs : TablesInv memMap root s) {pre : List (BitVec 9)} {t e g : BitVec 64}
    {i : BitVec 9} (hdepth : pre.length = 3)
    (hlink : Link (edge s.mem) (edge (linkPage s t i e).mem) 3 root pre t i g)
    (h : Held memMap root m f s) : Held memMap root m f (EtaOs.linkPage s t i e) := by
  obtain ⟨-, hmark⟩ := hs.linkPage hwf hroot hdepth hlink
  have htable : Table s.mem root t := ⟨pre, by omega, hlink.reach⟩
  refine ⟨h.frame, h.inReach, ?_, fun ht => ?_, h.notBitmap, ?_⟩
  · rw [hmark _ h.inReach]
    exact h.marked
  · rcases (hlink.isTable_iff hs.separated).mp ht with ht | ⟨hlt, -⟩
    · exact h.notTable ht
    · omega
  · refine h.same.trans (sameOn_store64 e ?_)
    exact (h.apart_table hroot htable).mono (entryAddr_range t i) (by simp) (by decide)
      (by decide)

/-- **Writing to a frame that is held** changes no table and no mark. -/
theorem write (hs : TablesInv memMap root s) (h : Held memMap root m f s) {m' : Mem}
    (hmem : ∀ x, ¬ (x - f).toNat < 4096 → m' x = s.mem x) :
    TablesInv memMap root { s with mem := m' } ∧
      (∀ t, Table s.mem root t → SameOn t 4096 s.mem m') ∧
      ∀ k < reach memMap, Machine.marked { s with mem := m' } k = s.marked k :=
  hs.write hwf hroot h.frame h.notTable h.notBitmap hmem

end Held

/-- **`map_mem` keeps the frames that are held**, along with any invariant that contains the
invariant of the tables. -/
theorem mapInv_held {I : Kernel → Prop} {Allowed : BitVec 64 → BitVec 64 → Prop}
    (hwf : WellFormedMap memMap) (hM : MapInv bootAllocator root I (Granted memMap) Allowed)
    (htables : ∀ s, I s → TablesInv memMap root s) (B : Set (BitVec 64)) :
    MapInv bootAllocator root (fun s => I s ∧ ∀ f ∈ B, Held memMap root m f s) (Granted memMap)
      Allowed := by
  refine hM.and ?_ ?_
  · intro s v p pre t i e hI hheld hOk _ _ hdepth hlink f hf
    exact (hheld f hf).linkTable hwf hM.frame (htables s hI) hOk hdepth hlink
  · intro s v p t e hI hheld _ hlink f hf
    exact (hheld f hf).linkPage hwf hM.frame (htables s hI) rfl hlink

/-! ## The pages -/

/-- The address of page `j` of the heap at `a`. -/
def heapPage (a : BitVec 64) (j : ℕ) : BitVec 64 := a + BitVec.ofNat 64 (4096 * j)

/-- Where the heap is: its start is page-aligned, above the pages of memory, and its first
`n` pages end below `2 ^ 48`. -/
structure HeapRange (memMap : List EfiMemoryDescriptor) (a : BitVec 64) (n : ℕ) : Prop where
  aligned : a.toNat % 4096 = 0
  above : 4096 * totalFrames memMap ≤ a.toNat
  below : a.toNat + 4096 * n ≤ 2 ^ 48

namespace HeapRange

variable {a : BitVec 64} {n i j : ℕ}

theorem mono {k : ℕ} (h : HeapRange memMap a n) (hk : k ≤ n) : HeapRange memMap a k :=
  ⟨h.aligned, h.above, by have := h.below; omega⟩

theorem toNat_heapPage_of_le (h : HeapRange memMap a n) (hj : j ≤ n) :
    (heapPage a j).toNat = a.toNat + 4096 * j := by
  have hbelow := h.below
  rw [heapPage, BitVec.toNat_add, BitVec.toNat_ofNat]
  omega

theorem toNat_heapPage (h : HeapRange memMap a n) (hj : j < n) :
    (heapPage a j).toNat = a.toNat + 4096 * j := h.toNat_heapPage_of_le hj.le

theorem samePage_iff (h : HeapRange memMap a n) (hi : i < n) (hj : j < n) :
    SamePage (heapPage a i) (heapPage a j) ↔ i = j := by
  have hbelow := h.below
  have hi' := h.toNat_heapPage hi
  have hj' := h.toNat_heapPage hj
  rw [samePage_iff_of_lt (by omega) (by omega)]
  omega

end HeapRange

/-- The frame behind page `j`, when it is present. -/
def Backs (root : BitVec 64) (a : BitVec 64) (s : Kernel) (j : ℕ) (f : BitVec 64) : Prop :=
  walk s.mem root (heapPage a j) = some f

/-- The first `n` pages of the heap at `a` are present, and the frames behind them are held
and all different. -/
structure HeapPages (memMap : List EfiMemoryDescriptor) (root a : BitVec 64) (n : ℕ) (s : Kernel) :
    Prop where
  identity : IdentityInv memMap root s
  present : ∀ j < n, ∃ f, Backs root a s j f
  held : ∀ j < n, ∀ f, Backs root a s j f → Held memMap root s.mem f s
  distinct : ∀ i < n, ∀ j < n, ∀ f, Backs root a s i f → Backs root a s j f → i = j

namespace HeapPages

variable {a : BitVec 64} {n : ℕ} (hwf : WellFormedMap memMap) (hpages : 1 ≤ totalFrames memMap)
  (hsize : (totalMem memMap).toNat ≤ 2 ^ 48) (hroot : IsFrame root)

/-- A heap without pages. -/
theorem zero (h : IdentityInv memMap root s) : HeapPages memMap root a 0 s where
  identity := h
  present := fun j hj => absurd hj (Nat.not_lt_zero j)
  held := fun j hj => absurd hj (Nat.not_lt_zero j)
  distinct := fun i hi => absurd hi (Nat.not_lt_zero i)

include hwf hpages hsize hroot

/-- **The next page.**  Mapping a requested frame behind the last page keeps the pages
present, their frames held and different, and shows the same bytes in the pages before. -/
theorem mapHeapPage {s' : Kernel} (hrange : HeapRange memMap a (n + 1))
    (h : HeapPages memMap root a n s) (hrun : mapHeapPage ⟨root⟩ s (heapPage a n) = some s')
    (hOk : ∀ r ∈ s'.requests, Granted memMap r) :
    HeapPages memMap root a (n + 1) s' ∧ ∀ j < n, ∀ f, Backs root a s j f →
      Backs root a s' j f ∧ SameOn f 4096 s.mem s'.mem := by
  have hnext := h.identity.granted_mapHeapPage hwf hroot hrun hOk
  rw [h.identity.mapHeapPage_eq hwf hroot] at hrun
  obtain ⟨hframe, hfree, -, -⟩ := h.identity.tables.alloc.request_frame hnext
  have hallowed : KeepsMemory memMap (heapPage a n) (requestPage s).1 := by
    have habove := hrange.above
    have hbelow := hrange.below
    have hpage := hrange.toNat_heapPage (Nat.lt_succ_self n)
    exact ⟨by omega, Or.inr (by omega)⟩
  -- the frames behind the old pages, and the one that was requested
  have hM := mapInv_paged hwf (mapInv_held (m := (s.takeFrame bootAllocator).2.mem) hwf
    (mapInv_memory hwf hpages hsize hroot) (fun _ hI => hI.tables)
    (insert (requestPage s).1 {f | ∃ j < n, Backs root a s j f})) fun _ hI => hI.1
  have hsame := h.identity.tables.sameOn_requestPage hwf hroot hnext
  have hheld : ∀ f ∈ insert (requestPage s).1 {f | ∃ j < n, Backs root a s j f},
      Held memMap root (s.takeFrame bootAllocator).2.mem f (s.takeFrame bootAllocator).2 := by
    rintro f (rfl | ⟨j, hj, hf⟩)
    · exact Held.of_request hwf hroot h.identity.tables hnext
    · have hold := (h.held j hj f hf).takeFrame hwf hroot h.identity.tables hnext
      exact { hold with same := SameOn.refl _ _ _ }
  obtain ⟨⟨hidentity, hheld'⟩, hwalk⟩ := hM.mapMem_spec
    ⟨h.identity.takeFrame hwf hroot hnext, hheld⟩ hallowed hrun hOk
  have hold : ∀ j < n, ∀ f, Backs root a s' j f ↔ Backs root a s j f := by
    intro j hj f
    have hnot : ¬ SamePage (heapPage a n) (heapPage a j) := by
      rw [hrange.samePage_iff (Nat.lt_succ_self n) (by omega)]
      omega
    have htaken : walk (s.takeFrame bootAllocator).2.mem root (heapPage a j) =
        walk s.mem root (heapPage a j) := walk_congr hsame _
    unfold Backs
    rw [hwalk, if_neg hnot, htaken]
  have hnew : ∀ f, Backs root a s' n f ↔ (requestPage s).1 = f := by
    intro f
    have hself : SamePage (heapPage a n) (heapPage a n) := rfl
    unfold Backs
    rw [hwalk, if_pos hself, hframe.frameOf, Option.some_inj]
  -- a frame behind an old page was marked before the request
  have hne : ∀ j < n, ∀ f, Backs root a s j f → (requestPage s).1 ≠ f := by
    rintro j hj f hf rfl
    exact absurd ((h.held j hj _ hf).marked.symm.trans hfree) (by decide)
  refine ⟨⟨hidentity, fun j hj => ?_, fun j hj f hf => ?_, fun i hi j hj f hif hjf => ?_⟩,
    fun j hj f hf => ⟨(hold j hj f).mpr hf, ?_⟩⟩
  · rcases Nat.lt_succ_iff_lt_or_eq.mp hj with hj | rfl
    · obtain ⟨f, hf⟩ := h.present j hj
      exact ⟨f, (hold j hj f).mpr hf⟩
    · exact ⟨_, (hnew _).mpr rfl⟩
  · have hmem : f ∈ insert (requestPage s).1 {f | ∃ j < n, Backs root a s j f} := by
      rcases Nat.lt_succ_iff_lt_or_eq.mp hj with hj | rfl
      · exact Or.inr ⟨j, hj, (hold j hj f).mp hf⟩
      · exact Or.inl ((hnew f).mp hf).symm
    exact { hheld' f hmem with same := SameOn.refl _ _ _ }
  · rcases Nat.lt_succ_iff_lt_or_eq.mp hi with hi | rfl <;>
      rcases Nat.lt_succ_iff_lt_or_eq.mp hj with hj | rfl
    · exact h.distinct i hi j hj f ((hold i hi f).mp hif) ((hold j hj f).mp hjf)
    · exact absurd ((hnew f).mp hjf) (hne i hi f ((hold i hi f).mp hif))
    · exact absurd ((hnew f).mp hif) (hne j hj f ((hold j hj f).mp hjf))
    · rfl
  · have hbits := Held.sameOn_requestPage hwf h.identity.tables.alloc hnext (h.held j hj f hf).frame
      (h.held j hj f hf).notBitmap
    exact hbits.trans (hheld' f (Or.inr ⟨j, hj, hf⟩)).same

omit hpages hsize in
/-- **Writing to a frame behind a page** changes no table, no mark, and no other frame of the
heap. -/
theorem write {j : ℕ} {m' : Mem} (h : HeapPages memMap root a n s) (hj : j < n)
    (hf : Backs root a s j f) (hmem : ∀ x, ¬ (x - f).toNat < 4096 → m' x = s.mem x) :
    HeapPages memMap root a n { s with mem := m' } ∧
      ∀ w, walk m' root w = walk s.mem root w := by
  obtain ⟨htables, hsame, hmark⟩ := (h.held j hj f hf).write hwf hroot h.identity.tables hmem
  have hwalk := walk_congr hsame
  have hbacks : ∀ i g, Backs root a { s with mem := m' } i g ↔ Backs root a s i g := by
    intro i g
    unfold Backs
    rw [hwalk]
  refine ⟨⟨h.identity.of_walk htables rfl fun k _ => hwalk (pageAddress k), fun i hi => ?_,
    fun i hi g hg => ?_, fun i hi k hk g hig hkg => ?_⟩, hwalk⟩
  · obtain ⟨g, hg⟩ := h.present i hi
    exact ⟨g, (hbacks i g).mpr hg⟩
  · exact (h.held i hi g ((hbacks i g).mp hg)).of_sameOn hsame hmark
  · exact h.distinct i hi k hk g ((hbacks i g).mp hig) ((hbacks k g).mp hkg)

end HeapPages

end EtaOs
