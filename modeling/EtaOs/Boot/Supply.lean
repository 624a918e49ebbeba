import EtaOs.Boot.TablesInv

/-!
# Enough frames for the tables

Each table sits at the end of a path of table indices, and no two at the end of one path.
So a set of paths bounds how many frames the mappings can take: while more frames are
unmarked than there are paths left, every request is granted.

With `Supply` a run can be shown to succeed, where the other invariants only say what holds if it
does.  Every theorem here that exhibits a run, and every witness, counts its frames this way.

* `Supply`: some of the paths in `S` are taken, and the unmarked frames outnumber the other
  paths by more than `n`.
* `mapInv_supply`: `map_mem` keeps `Supply`, whatever its requests return, for addresses
  whose paths are in `S`.
* `Supply.takeFrame`: a frame taken for something else uses up one of the `n`.
-/

namespace EtaOs

open ByteMemory IntLoop RadixTree

variable {memMap : List EfiMemoryDescriptor} {root : BitVec 64} {S : Finset (List (BitVec 9))}
  {L : ℕ → Prop} [DecidablePred L] {n : ℕ}

/-- The frames within reach that are not marked and not in `L`. -/
def unmarked (memMap : List EfiMemoryDescriptor) (L : ℕ → Prop) [DecidablePred L] (s : Kernel) :
    Finset ℕ :=
  (Finset.range (reach memMap)).filter fun k => s.marked k = false ∧ ¬ L k

theorem mem_unmarked {s : Kernel} {k : ℕ} :
    k ∈ unmarked memMap L s ↔ k < reach memMap ∧ s.marked k = false ∧ ¬ L k := by
  rw [unmarked, Finset.mem_filter, Finset.mem_range]

/-- The tables linked so far are at paths in `S`, and the unmarked frames outside `L`
outnumber the paths of `S` that are not taken by more than `n`. -/
structure Supply (memMap : List EfiMemoryDescriptor) (root : BitVec 64)
    (S : Finset (List (BitVec 9))) (L : ℕ → Prop) [DecidablePred L] (n : ℕ) (s : Kernel) :
    Prop where
  tables : TablesInv memMap root s
  room : ∃ P ⊆ S, (∀ p ∈ P, p.length ≤ 3 ∧ ∃ t, descend (edge s.mem) root p = some t) ∧
    S.card + n < (unmarked memMap L s).card + P.card

/-- The tables of the walk of `v` are at paths in `S`. -/
def PathsIn (S : Finset (List (BitVec 9))) (v : BitVec 64) : Prop :=
  ∀ pre i, pre ++ [i] <+: pathOf v → pre.length < 3 → pre ++ [i] ∈ S

/-- The paths of the three tables above the page of `v`. -/
def pathsOf (v : BitVec 64) : Finset (List (BitVec 9)) :=
  {[tableIndex v 3], [tableIndex v 3, tableIndex v 2],
    [tableIndex v 3, tableIndex v 2, tableIndex v 1]}

theorem pathsIn_iff {v : BitVec 64} : PathsIn S v ↔ pathsOf v ⊆ S := by
  unfold pathsOf
  rw [Finset.insert_subset_iff, Finset.insert_subset_iff, Finset.singleton_subset_iff]
  constructor
  · exact fun h => ⟨h [] _ ⟨_, rfl⟩ (by simp), h [_] _ ⟨_, rfl⟩ (by simp),
      h [_, _] _ ⟨_, rfl⟩ (by simp)⟩
  · rintro ⟨h3, h2, h1⟩ pre i ⟨rest, hrest⟩ hlen
    rw [pathOf] at hrest
    rcases pre with - | ⟨a, - | ⟨b, - | ⟨c, pre⟩⟩⟩
    · obtain ⟨rfl, -⟩ := List.cons.inj hrest
      exact h3
    · simp at hrest
      obtain ⟨rfl, rfl, -⟩ := hrest
      exact h2
    · simp at hrest
      obtain ⟨rfl, rfl, rfl, -⟩ := hrest
      exact h1
    · simp at hlen
      omega

/-- **An unmarked frame within reach makes a request succeed.** -/
theorem AllocInv.granted {s : Kernel} (h : AllocInv memMap s) {k : ℕ} (hk : k < reach memMap)
    (hfree : s.marked k = false) : Granted memMap (nextRequest bootAllocator s) := by
  have hsize : k < s.alloc.pageBitmap.size.toNat := by
    rw [h.bitmap]
    exact lt_of_lt_of_le hk (Nat.min_le_left _ _)
  show (EtaOs.requestPage s).1 ≠ 0 ∧ frameIndex (EtaOs.requestPage s).1 < reach memMap
  rcases requestPage_cases h.hint with ⟨i, hi, hclear, hbelow, heq⟩ | ⟨hall, -⟩
  · have hlt := h.hint.size_lt
    have hframe : frameIndex (EtaOs.requestPage s).1 = i.toNat := by
      rw [heq]
      exact frameIndex_mul (by omega)
    have hik : i.toNat ≤ k := by
      by_contra hgt
      rw [hbelow k (by omega)] at hfree
      exact Bool.noConfusion hfree
    refine ⟨fun hzero => ?_, by omega⟩
    rw [hzero] at hframe
    have hi0 : i.toNat = 0 := hframe.symm
    rw [hi0, h.zero] at hclear
    exact Bool.noConfusion hclear
  · rw [hall k hsize] at hfree
    exact Bool.noConfusion hfree

/-- A granted request takes at most one of the unmarked frames. -/
theorem card_unmarked_requestPage {s : Kernel} (h : AllocInv memMap s) :
    (unmarked memMap L s).card ≤ (unmarked memMap L (requestPage s).2).card + 1 := by
  have hsub : (unmarked memMap L s).erase (frameIndex (requestPage s).1) ⊆
      unmarked memMap L (requestPage s).2 := by
    intro k hk
    obtain ⟨hne, hk⟩ := Finset.mem_erase.mp hk
    obtain ⟨hlt, hfree, hL⟩ := mem_unmarked.mp hk
    refine mem_unmarked.mpr ⟨hlt, ?_, hL⟩
    rw [← Bool.not_eq_true, marked_requestPage h.hint (h.le_last hlt), hfree]
    rintro (hno | ⟨-, heq⟩)
    · exact Bool.noConfusion hno
    · exact hne heq.symm
  have hcard := Finset.card_le_card hsub
  have herase := Finset.pred_card_le_card_erase (s := unmarked memMap L s)
    (a := frameIndex (requestPage s).1)
  omega

theorem unmarked_congr {s s' : Kernel} (h : ∀ k < reach memMap, s'.marked k = s.marked k) :
    unmarked memMap L s' = unmarked memMap L s := by
  refine Finset.filter_congr fun k hk => ?_
  rw [h k (Finset.mem_range.mp hk)]

namespace Supply

/-- **While there is room, a request is granted.** -/
theorem granted {s : Kernel} (h : Supply memMap root S L n s) :
    Granted memMap (nextRequest bootAllocator s) := by
  obtain ⟨P, hPS, -, hroom⟩ := h.room
  have hcard := Finset.card_le_card hPS
  have hpos : 0 < (unmarked memMap L s).card := by omega
  obtain ⟨k, hk⟩ := Finset.card_pos.mp hpos
  obtain ⟨hlt, hfree, -⟩ := mem_unmarked.mp hk
  exact h.tables.alloc.granted hlt hfree

/-- A change that keeps the tables and the marks. -/
theorem of_sameOn {s s' : Kernel} (h : Supply memMap root S L n s)
    (htables : TablesInv memMap root s')
    (hsame : ∀ t, Table s.mem root t → SameOn t 4096 s.mem s'.mem)
    (hmark : ∀ k < reach memMap, s'.marked k = s.marked k) : Supply memMap root S L n s' := by
  obtain ⟨P, hPS, hP, hroom⟩ := h.room
  refine ⟨htables, P, hPS, fun p hp => ?_, ?_⟩
  · obtain ⟨hlen, u, hu⟩ := hP p hp
    exact ⟨hlen, u, (descend_congr hsame p (by omega)).trans hu⟩
  · rw [unmarked_congr hmark]
    exact hroom

variable (hwf : WellFormedMap memMap) (hroot : IsFrame root)

include hwf hroot

/-- **Linking a table takes one frame and one path.** -/
theorem linkTable {s : Kernel} (h : Supply memMap root S L n s) {v : BitVec 64} (hv : PathsIn S v)
    {pre : List (BitVec 9)} {t e : BitVec 64} {i : BitVec 9} (hpath : pre ++ [i] <+: pathOf v)
    (hdepth : pre.length < 3)
    (hlink : Link (edge s.mem) (edge (linkTable (s.takeFrame bootAllocator).2 t i
      (requestPage s).1 e).mem) 3 root pre t i (requestPage s).1) :
    Supply memMap root S L n
      (linkTable (s.takeFrame bootAllocator).2 t i (requestPage s).1 e) := by
  obtain ⟨htables, hmark⟩ := h.tables.linkTable hwf hroot h.granted hdepth hlink
  have hsep := h.tables.separated
  obtain ⟨P, hPS, hP, hroom⟩ := h.room
  -- the entry was vacant, so the path is not among those taken
  have hnew : pre ++ [i] ∉ P := by
    intro hmem
    obtain ⟨-, u, hu⟩ := hP _ hmem
    rw [descend_snoc, hlink.reach, Option.bind_some, (hlink.fresh hdepth).1] at hu
    exact Option.some_ne_none u hu.symm
  refine ⟨htables, insert (pre ++ [i]) P, ?_, ?_, ?_⟩
  · exact Finset.insert_subset (hv pre i hpath hdepth) hPS
  · intro p hp
    rcases Finset.mem_insert.mp hp with rfl | hp
    · refine ⟨by simp; omega, (requestPage s).1, ?_⟩
      rw [hlink.descend_eq hsep _ (by simp; omega), if_pos rfl]
    · obtain ⟨hlen, u, hu⟩ := hP p hp
      refine ⟨hlen, u, ?_⟩
      rw [hlink.descend_eq hsep _ (by omega), if_neg, hu]
      rintro rfl
      exact hnew hp
  · have hcard := card_unmarked_requestPage (L := L) h.tables.alloc
    rw [unmarked_congr hmark, Finset.card_insert_of_notMem hnew]
    omega

/-- Setting a page takes nothing. -/
theorem linkPage {s : Kernel} (h : Supply memMap root S L n s) {pre : List (BitVec 9)}
    {t e f : BitVec 64} {i : BitVec 9} (hdepth : pre.length = 3)
    (hlink : Link (edge s.mem) (edge (linkPage s t i e).mem) 3 root pre t i f) :
    Supply memMap root S L n (EtaOs.linkPage s t i e) := by
  obtain ⟨htables, hmark⟩ := h.tables.linkPage hwf hroot hdepth hlink
  obtain ⟨P, hPS, hP, hroom⟩ := h.room
  refine ⟨htables, P, hPS, fun p hp => ?_, ?_⟩
  · obtain ⟨hlen, u, hu⟩ := hP p hp
    refine ⟨hlen, u, ?_⟩
    rw [hlink.descend_eq_of_leaf h.tables.separated hdepth hlen, hu]
  · rw [unmarked_congr hmark]
    exact hroom

/-- Locking frames of `L` takes nothing. -/
theorem lockPages {s : Kernel} (h : Supply memMap root S L n s) {addr pageCount : BitVec 64}
    (hlock : ∀ k ≤ (initialBitmap memMap).last, LoopFrames addr pageCount k → k < 2 ^ 34)
    (hL : ∀ k < reach memMap, LoopFrames addr pageCount k → L k) :
    Supply memMap root S L n (EtaOs.lockPages s addr pageCount) := by
  obtain ⟨P, hPS, hP, hroom⟩ := h.room
  have hsame := h.tables.sameOn_lockPages hwf hroot hlock
  refine ⟨h.tables.lockPages hwf hroot hlock, P, hPS, fun p hp => ?_, ?_⟩
  · obtain ⟨hlen, u, hu⟩ := hP p hp
    exact ⟨hlen, u, (descend_congr hsame p (by omega)).trans hu⟩
  · have hsub : unmarked memMap L s ⊆ unmarked memMap L (EtaOs.lockPages s addr pageCount) := by
      intro k hk
      obtain ⟨hlt, hfree, hkL⟩ := mem_unmarked.mp hk
      refine mem_unmarked.mpr ⟨hlt, ?_, hkL⟩
      rw [← Bool.not_eq_true]
      intro hm
      rcases (marked_forPages_takePage (h.tables.alloc.le_last hlt)).mp hm with hm | hloop
      · exact absurd (hm.symm.trans hfree) (by decide)
      · exact hkL (hL k hlt hloop)
    have hcard := Finset.card_le_card hsub
    omega

end Supply

/-- **`map_mem` keeps `Supply`** along with any invariant that it keeps on granted requests,
and all its requests are granted. -/
theorem mapInv_supply {I : Kernel → Prop} {Allowed : BitVec 64 → BitVec 64 → Prop}
    (hwf : WellFormedMap memMap) (hM : MapInv bootAllocator root I (Granted memMap) Allowed) :
    MapInv bootAllocator root (fun s => I s ∧ Supply memMap root S L n s) (fun _ => True)
      fun v p => Allowed v p ∧ PathsIn S v where
  frame := hM.frame
  cr3 := fun s h => hM.cr3 s h.1
  separated := fun s h => hM.separated s h.1
  direct := fun s h => hM.direct s h.1
  fresh := fun s h _ => hM.fresh s h.1 h.2.granted
  table := fun s v p pre t i e h _ ha hpath hdepth hlink =>
    ⟨hM.table s v p pre t i e h.1 h.2.granted ha.1 hpath hdepth hlink,
      h.2.linkTable hwf hM.frame ha.2 hpath hdepth hlink⟩
  page := fun s v p t e h ha hlink =>
    ⟨hM.page s v p t e h.1 ha.1 hlink, h.2.linkPage hwf hM.frame rfl hlink⟩

/-- **A frame taken for something else than a table** uses up one of the frames in excess. -/
theorem Supply.takeFrame {s : Kernel} (hwf : WellFormedMap memMap) (hroot : IsFrame root)
    (h : Supply memMap root S L (n + 1) s) :
    Supply memMap root S L n (s.takeFrame bootAllocator).2 := by
  obtain ⟨P, hPS, hP, hroom⟩ := h.room
  have hsame := h.tables.sameOn_requestPage hwf hroot h.granted
  refine ⟨h.tables.takeFrame hwf hroot h.granted, P, hPS, fun p hp => ?_, ?_⟩
  · obtain ⟨hlen, u, hu⟩ := hP p hp
    exact ⟨hlen, u, (descend_congr hsame p (by omega)).trans hu⟩
  · have hcard := card_unmarked_requestPage (L := L) h.tables.alloc
    have hmarks : unmarked memMap L (s.takeFrame bootAllocator).2 =
        unmarked memMap L (requestPage s).2 := rfl
    rw [hmarks]
    omega

end EtaOs
