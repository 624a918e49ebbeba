import EtaOs.Heap.Kept
import EtaOs.Heap.Merges
import EtaOs.KernelHeap.Mirrors

/-!
# `malloc` and `free`, behind the page tables

On a list of aligned segments `malloc` and `free` of the machine do what they do on virtual
memory: the loop reads the headers of the list, `split` and the merges write to headers of the
list, and an extension maps its pages behind the last one.

The functions on the machine are programs that may fault, and those on virtual memory cannot.  That
the former return is part of what is shown, and for the loop of `malloc` it is what the alignment
is for: a field that ran over the end of a page would be read from two frames.

* `HeapOn`: an aligned list of segments in the pages of the heap.
* `Mirrors.scan`: the loop of `malloc`.
* `Mirrors.extendHeap`: the extension of the heap.
* `Mirrors.malloc`, `Mirrors.freeSegment`: the operations.
-/

namespace EtaOs

open ByteMemory Fallible RadixTree

variable {memMap : List EfiMemoryDescriptor} {root a : BitVec 64} {n : ℕ} {B : Set (BitVec 64)}
  {m : Mem} {k k' : KernelHeap PageFrameAllocator} {h : Heap} {segs L R : List Segment}
  {s : Segment} {r : BitVec 64}

/-- **The heap of `n` pages from `a` on** shows an aligned list of segments. -/
structure HeapOn (a : BitVec 64) (n : ℕ) (h : Heap) (segs : List Segment) : Prop where
  represents : Represents h segs
  aligned : AlignedHeaders segs
  start : h.heapStart = a
  stop : h.heapEnd = heapPage a n

namespace HeapOn

variable (hrange : HeapRange memMap a n)

include hrange

theorem stop_toNat (hon : HeapOn a n h segs) : h.heapEnd.toNat = a.toNat + 4096 * n := by
  rw [hon.stop, hrange.toNat_heapPage_of_le le_rfl]

/-- The headers of the list lie in the heap. -/
theorem headerIn (hon : HeapOn a n h segs) (hs : s ∈ segs) : HeaderIn a n s.addr := by
  obtain ⟨hlo, hhi⟩ := hon.represents.bounds hs
  rw [hon.start] at hlo
  rw [hon.stop_toNat hrange] at hhi
  exact ⟨hon.aligned s hs, hlo, by omega⟩

/-- The header behind a segment lies in the heap, when there is one. -/
theorem behind_headerIn (hon : HeapOn a n h (L ++ s :: R)) :
    behind R = 0 ∨ HeaderIn a n (behind R) := by
  cases R with
  | nil => exact Or.inl rfl
  | cons t R => exact Or.inr (hon.headerIn hrange (s := t) (by simp))

/-- The header before a segment lies in the heap, when there is one. -/
theorem before_headerIn (hon : HeapOn a n h (L ++ s :: R))
    (hne : (L.map Segment.addr).getLastD 0 ≠ 0) :
    HeaderIn a n ((L.map Segment.addr).getLastD 0) := by
  rcases List.eq_nil_or_concat L with rfl | ⟨L, t, rfl⟩
  · exact absurd rfl hne
  · rw [List.concat_eq_append] at hon ⊢
    have hlast : ((L ++ [t]).map Segment.addr).getLastD 0 = t.addr := by simp
    rw [hlast]
    exact hon.headerIn hrange (by simp)

omit hrange in
/-- The header that `split` makes is aligned, and lies in its segment. -/
theorem split_headerIn (hrange : HeapRange memMap a n) (hon : HeapOn a n h (L ++ s :: R))
    (hmod : r.toNat % 16 = 0) (hle : r ≤ s.length) (hpos : ¬ (s.length - r - 32).slt 0x10) :
    HeaderIn a n (s.addr + r + 32) := by
  have hs : s ∈ L ++ s :: R := by simp
  obtain ⟨hlo, hhi⟩ := hon.represents.bounds hs
  have hslot := hon.aligned s hs
  have hroom := room_of_not_slt hle hpos
  have hlt := h.heapEnd.isLt
  have hval : (s.addr + r + 32).toNat = s.addr.toNat + r.toNat + 32 := by bv_omega
  rw [hon.start] at hlo
  rw [hon.stop_toNat hrange] at hhi
  exact ⟨by omega, by omega, by omega⟩

end HeapOn

section Loop

variable (hrange : HeapRange memMap a n) (hwf : WellFormedMap memMap) (hroot : IsFrame root)
  (hpages : 1 ≤ totalFrames memMap)

include hrange

/-- A segment that does not fit is passed over. -/
theorem Mirrors.takeSegment_none (hk : Mirrors memMap root a n B m k h)
    (hon : HeapOn a n h (L ++ s :: R)) (hs : ¬ s.Fits r) :
    Returns (HeapM.takeSegment r s.addr) k fun o k' => o = none ∧ k' = k := by
  have hin := hon.headerIn hrange (s := s) (by simp)
  obtain ⟨hlen, hfr⟩ := hon.represents.fields s (by simp)
  refine (hk.free hrange hin).bind ?_
  rintro _ _ ⟨rfl, rfl⟩
  rw [hfr]
  by_cases hfree : s.free = true
  · have hnlt : ¬ r < s.length := fun hlt => hs ⟨hfree, by bv_omega⟩
    have hne : s.length ≠ r := fun heq => hs ⟨hfree, by bv_omega⟩
    refine Returns.of_ite_pos hfree ((hk.length hrange hin).bind ?_)
    rintro _ _ ⟨rfl, rfl⟩
    rw [hlen]
    refine Returns.of_ite_neg hnlt ((hk.length hrange hin).bind ?_)
    rintro _ _ ⟨rfl, rfl⟩
    rw [hlen]
    exact Returns.of_ite_neg hne (returns_pure ⟨rfl, rfl⟩)
  · exact Returns.of_ite_neg hfree (returns_pure ⟨rfl, rfl⟩)

include hwf hroot hpages

/-- **A segment that fits is taken**, as the loop on virtual memory takes it. -/
theorem Mirrors.takeSegment_some (hk : Mirrors memMap root a n B m k h)
    (hon : HeapOn a n h (L ++ s :: R)) (hmod : r.toNat % 16 = 0) (hs : s.Fits r) (fuel : ℕ) :
    ∃ h', scan (fuel + 1) r s.addr h = some (some (s.addr + 32), h') ∧
      Returns (HeapM.takeSegment r s.addr) k fun o k' =>
        o = some (s.addr + 32) ∧ Mirrors memMap root a n B m k' h' := by
  have hin := hon.headerIn hrange (s := s) (by simp)
  obtain ⟨hlen, hfr⟩ := hon.represents.fields s (by simp)
  obtain ⟨hfree, hle⟩ := hs
  have hstart : Returns (HeapM.free s.addr) k fun w k' => w = true ∧ k' = k := by
    have hload := hk.free hrange hin
    rwa [hfr, hfree] at hload
  have hlength : Returns (HeapM.length s.addr) k fun w k' => w = s.length ∧ k' = k := by
    have hload := hk.length hrange hin
    rwa [hlen] at hload
  rw [EtaOs.scan, hfr, hlen, hfree]
  by_cases heq : s.length = r
  · have hnlt : ¬ r < s.length := by bv_omega
    refine ⟨h, ?_, hstart.bind ?_⟩
    · rw [if_neg fun hc => hnlt hc.2, if_pos ⟨rfl, heq⟩]
    rintro _ _ ⟨rfl, rfl⟩
    refine Returns.of_ite_pos rfl (hlength.bind ?_)
    rintro _ _ ⟨rfl, rfl⟩
    refine Returns.of_ite_neg hnlt (hlength.bind ?_)
    rintro _ _ ⟨rfl, rfl⟩
    exact Returns.of_ite_pos heq (returns_pure ⟨rfl, hk⟩)
  · have hlt : r < s.length := by bv_omega
    refine ⟨_, if_pos ⟨rfl, hlt⟩, hstart.bind ?_⟩
    rintro _ _ ⟨rfl, rfl⟩
    refine Returns.of_ite_pos rfl (hlength.bind ?_)
    rintro _ _ ⟨rfl, rfl⟩
    have hnext : HeapSegHeader.next h.mem s.addr = 0 ∨
        HeaderIn a n (HeapSegHeader.next h.mem s.addr) := by
      rw [hon.represents.next_eq_behind]
      exact hon.behind_headerIn hrange
    refine Returns.of_ite_pos hlt ((hk.split hrange hwf hroot hpages hin hnext ?_).bind ?_)
    · rw [hlen]
      exact fun _ hpos => hon.split_headerIn hrange hmod hle hpos
    rintro _ k₁ ⟨-, hk₁⟩
    refine (hk₁.setFree hrange hwf hroot hin false).bind ?_
    rintro _ k₂ hk₂
    exact returns_pure ⟨rfl, hk₂⟩

/-- **The loop of `malloc`** does on the machine what it does on virtual memory, and runs out of
iterations when that one does. -/
theorem Mirrors.scan (hmod : r.toNat % 16 = 0) (hk : Mirrors memMap root a n B m k h) :
    ∀ {fuel : ℕ} {L R : List Segment} {s : Segment}, HeapOn a n h (L ++ s :: R) →
      Option.Rel (fun p q => p.1 = q.1 ∧ Mirrors memMap root a n B m p.2 q.2)
        (HeapM.scan fuel r s.addr k) (EtaOs.scan fuel r s.addr h) := by
  intro fuel
  induction fuel with
  | zero =>
      intro _ _ _ _
      exact Option.Rel.none
  | succ fuel ih =>
      intro L R s hon
      by_cases hs : s.Fits r
      · obtain ⟨h', hscan, hreturns⟩ :=
          hk.takeSegment_some hrange hwf hroot hpages hon hmod hs fuel
        have hfound : Returns (HeapM.scan (fuel + 1) r s.addr) k fun o k' =>
            o = some (s.addr + 32) ∧ Mirrors memMap root a n B m k' h' := by
          refine hreturns.bind ?_
          rintro _ k₁ ⟨rfl, hk₁⟩
          exact returns_pure ⟨rfl, hk₁⟩
        obtain ⟨o, k₁, hrun, rfl, hk₁⟩ := hfound
        rw [hrun, hscan]
        exact Option.Rel.some ⟨rfl, hk₁⟩
      · have hin := hon.headerIn hrange (s := s) (by simp)
        obtain ⟨o, k₁, htake, ho, hk₁⟩ := hk.takeSegment_none hrange hon hs
        obtain ⟨b, k₂, hnext, hb, hk₂⟩ := hk.next hrange hin
        rw [ho, hk₁] at htake
        rw [hb, hk₂, hon.represents.next_eq_behind] at hnext
        have hrun : HeapM.scan (fuel + 1) r s.addr k =
            if behind R = 0 then some (none, k) else HeapM.scan fuel r (behind R) k := by
          rw [HeapM.scan, bind_apply, htake, Option.bind_some]
          dsimp only
          rw [bind_apply, hnext, Option.bind_some]
          split
          next h0 => rfl
          next h0 =>
            rw [bind_apply, hnext, Option.bind_some]
        rw [hrun, scan_of_not_fits hon.represents hs]
        cases R with
        | nil => exact Option.Rel.some ⟨rfl, hk⟩
        | cons t R =>
            have hne : behind (t :: R) ≠ 0 := hon.represents.addr_ne_zero (s := t) (by simp)
            rw [if_neg hne, if_neg hne]
            refine ih (L := L ++ [s]) (R := R) (s := t) ?_
            rwa [List.append_assoc]

/-- The loop starts at the first segment. -/
theorem Mirrors.scan_start (hmod : r.toNat % 16 = 0) (hk : Mirrors memMap root a n B m k h)
    (hon : HeapOn a n h segs) (fuel : ℕ) :
    Option.Rel (fun p q => p.1 = q.1 ∧ Mirrors memMap root a n B m p.2 q.2)
      (HeapM.scan fuel r k.heapStart k) (EtaOs.scan fuel r h.heapStart h) := by
  obtain ⟨L, s, rfl⟩ := hon.represents.exists_last
  rw [hk.refines.heapStart]
  cases L with
  | nil =>
      rw [← hon.represents.behind_eq]
      exact hk.scan hrange hwf hroot hpages hmod (L := []) (R := []) hon
  | cons t L =>
      rw [← hon.represents.behind_eq]
      exact hk.scan hrange hwf hroot hpages hmod (L := []) (R := L ++ [s]) hon

end Loop

/-! ## The operations -/

/-- Related results that both exist. -/
theorem exists_of_rel {α σ τ : Type} {Q : σ → τ → Prop} {x : Option (α × σ)} {y : Option (α × τ)}
    (hrel : Option.Rel (fun p q => p.1 = q.1 ∧ Q p.2 q.2) x y) {o : α} {k : σ}
    (hx : x = some (o, k)) : ∃ h, y = some (o, h) ∧ Q k h := by
  subst hx
  cases hrel with
  | @some _ q hpq =>
      obtain ⟨o', h⟩ := q
      obtain ⟨rfl, hQ⟩ := hpq
      exact ⟨h, rfl, hQ⟩

/-- What the frames to come contain does not matter to the list. -/
theorem HeapOn.withFresh (hon : HeapOn a n h segs) (fresh : ℕ → Mem) :
    HeapOn a n { h with fresh := fresh } segs where
  represents := by
    obtain ⟨hlinked, hfields, htiles, hlast, hlow⟩ := hon.represents
    exact ⟨hlinked, hfields, htiles, hlast, hlow⟩
  aligned := hon.aligned
  start := hon.start
  stop := hon.stop

theorem Mirrors.withFresh (hk : Mirrors memMap root a n B m k h) (fresh : ℕ → Mem) :
    Mirrors memMap root a n B m k { h with fresh := fresh } :=
  ⟨⟨hk.refines.shown, hk.refines.heapStart, hk.refines.heapEnd, hk.refines.lastHeader⟩, hk.null,
    hk.kept, hk.far⟩

/-- **The extension** of an aligned list. -/
theorem HeapOn.extend (hrange : HeapRange memMap a (n + pagesUp r.toNat / 4096))
    (hon : HeapOn a n h (L ++ [s])) (hused : s.free = false) (hpos : 0 < r.toNat) :
    HeapOn a (n + pagesUp r.toNat / 4096) (extendHeap r h) (L ++ s :: [grown h r]) := by
  have hbelow := hrange.below
  have haligned := hrange.aligned
  obtain ⟨-, -, hwhole⟩ := pagesUp_spec r.toNat
  have hstop := hon.stop_toNat (hrange.mono (Nat.le_add_right n _))
  have hcount := pageCount_toNat (show pagesUp r.toNat < 2 ^ 64 by omega)
  have hpage := hon.represents.below_pageStart (s := s) (by simp) (by omega)
  refine ⟨hon.represents.extend hused hpos (by omega) hpage, fun t ht => ?_, ?_, ?_⟩
  · have hcases : t ∈ L ++ [s] ∨ t = grown h r := by simpa [or_assoc] using ht
    rcases hcases with ht | rfl
    · exact hon.aligned t ht
    · show h.heapEnd.toNat % 16 = 0
      omega
  · rw [extendHeap_eq, (combineBackward_sameHeap _ _).heapStart, hcount]
    exact (growLoop_globals (h := h) (by omega)).1.trans hon.start
  · rw [extendHeap_eq, (combineBackward_sameHeap _ _).heapEnd, hcount]
    show (growLoop (pagesUp r.toNat / 4096) h).heapEnd = _
    rw [growLoop_eq, hon.stop]
    exact (heapPage_add a n _).symm

/-- **A request that fits** leaves an aligned list. -/
theorem HeapOn.malloc_fits {size : BitVec 64} {fuel : ℕ} {p : Addr} {h' : Heap}
    (hon : HeapOn a n h segs) (hne : roundUp size ≠ 0) (hfit : ∃ t ∈ segs, t.Fits (roundUp size))
    (hmalloc : malloc fuel size h = some (p, h')) : ∃ segs', HeapOn a n h' segs' := by
  obtain ⟨L, s, R, rfl, hL, hs⟩ := exists_first_fit hfit
  obtain ⟨h₁, hfirst, hrep, hend, -⟩ :=
    malloc_first size _ hon.represents hne hL hs (Nat.lt_succ_self _)
  obtain ⟨rfl, rfl⟩ := Prod.mk.inj (malloc_unique hmalloc hfirst)
  have hallots := Allots.mk L R s hL hs
  exact ⟨_, hrep, hallots.aligned hon.represents (roundUp_mod hne) hon.aligned,
    (hallots.heapStart hon.represents hrep).trans hon.start, hend.trans hon.stop⟩

theorem scan_mono_le {x : Option Addr × Heap} {fuel fuel' : ℕ} {b : Addr} (hle : fuel ≤ fuel')
    (hscan : scan fuel r b h = some x) : scan fuel' r b h = some x := by
  induction hle with
  | refl => exact hscan
  | step _ ih => exact scan_mono ih

section Operations

variable (hwf : WellFormedMap memMap) (hpages : 1 ≤ totalFrames memMap)
  (hsize : (totalMem memMap).toNat ≤ 2 ^ 48) (hroot : IsFrame root)

include hwf hpages hsize hroot

/-- **`init_heap`** keeps the frames that are held before it. -/
theorem Mirrors.initHeap {pageCount : BitVec 64} {u : Unit} (hpos : 0 < pageCount.toNat)
    (hrange : HeapRange memMap a pageCount.toNat) (hid : IdentityInv memMap root k.machine)
    (hnull : Held memMap root k.machine.mem 0 k.machine)
    (hB : ∀ f ∈ B, Held memMap root k.machine.mem f k.machine)
    (hrun : HeapM.initHeap globalAllocator ⟨root⟩ a pageCount k = some (u, k'))
    (hOk : ∀ r ∈ k'.machine.requests, Granted memMap r) (h : Heap) :
    ∃ fresh, Mirrors memMap root a pageCount.toNat B k.machine.mem k'
      (EtaOs.initHeap a pageCount { h with fresh := fresh }) := by
  obtain ⟨_, k₁, hloop, hlist⟩ := bind_eq_some.mp hrun
  have hmoves : Moves SameRequests
      (HeapM.startList (σ := PageFrameAllocator) a (pageCount * 4096)) := HeapM.moves_startList
  have hrequests : k'.machine.requests = k₁.machine.requests := hmoves k₁ u k' hlist
  have hOk₁ : ∀ r ∈ k₁.machine.requests, Granted memMap r := by rwa [← hrequests]
  have hzero : heapPage a 0 = a := BitVec.add_zero a
  have hrange₀ : HeapRange memMap a (0 + pageCount.toNat) := by rwa [Nat.zero_add]
  have hloop₀ : HeapM.mapPages globalAllocator ⟨root⟩ pageCount.toNat (heapPage a 0) k =
      some ((), k₁) := by rwa [hzero]
  have hpages₁ := (mapPages_pages hwf hpages hsize hroot hrange₀ (HeapPages.zero hid) hloop₀ hOk₁).1
  have hspares := Spares.mapPages hwf hpages hsize hroot hrange₀ (HeapPages.zero hid) hloop₀ hOk₁
  -- no page is mapped yet, so every frame that is held is reserved
  have hreserved : ∀ {f}, Held memMap root k.machine.mem f k.machine →
      Reserved memMap root a (0 + pageCount.toNat) f k₁.machine ∧
        SameOn f 4096 k.machine.mem k₁.machine.mem := fun hf =>
    hspares.reserved _ ⟨hf, fun j hj => absurd hj (Nat.not_lt_zero j)⟩
  let h₀ : Heap := { h with fresh := fun _ => k₁.machine.view }
  have hagree : AgreeOnPages a (0 + pageCount.toNat) k₁.machine.view
      (EtaOs.mapPages pageCount.toNat (heapPage a 0) h₀).mem :=
    agreeOnPages_mapPages hrange₀ rfl fun j hj => absurd hj (Nat.not_lt_zero j)
  have hshown := shown_of_agree hrange₀ hpages₁ hagree
  rw [Nat.zero_add, hzero] at hshown
  rw [Nat.zero_add] at hreserved
  refine ⟨fun _ => k₁.machine.view, ?_⟩
  have hfirst : HeaderIn a pageCount.toNat a := by
    have haligned := hrange.aligned
    exact ⟨by omega, le_rfl, by omega⟩
  let h₁ : Heap := { EtaOs.mapPages pageCount.toNat a h₀ with
    heapStart := a, heapEnd := a + pageCount * 4096, lastHeader := k₁.lastHeader }
  have hstart : Returns (HeapM.startList a (pageCount * 4096)) k₁ fun _ k' =>
      Mirrors memMap root a pageCount.toNat B k.machine.mem k' (EtaOs.initHeap a pageCount h₀) := by
    refine Returns.bind (Q := fun _ k' =>
      Mirrors memMap root a pageCount.toNat B k.machine.mem k' h₁)
      (returns_modify ⟨⟨hshown, rfl, rfl, rfl⟩, (hreserved hnull).1,
        fun f hf _ => hreserved (hB f hf), hspares.far⟩) ?_
    rintro _ k₂ hk₂
    refine (hk₂.setLength hrange hwf hroot hfirst _).bind ?_
    rintro _ k₃ hk₃
    refine (hk₃.setNext hrange hwf hroot hfirst _).bind ?_
    rintro _ k₄ hk₄
    refine (hk₄.setLast hrange hwf hroot hfirst _).bind ?_
    rintro _ k₅ hk₅
    refine (hk₅.setFree hrange hwf hroot hfirst _).bind ?_
    rintro _ k₆ hk₆
    exact hk₆.setLastHeader (f := fun _ => a)
  exact hstart.of_eq hlist

/-- **`extend_heap`** behind an aligned list. -/
theorem Mirrors.extendHeap {u : Unit} (hpos : 0 < r.toNat)
    (hrange : HeapRange memMap a (n + pagesUp r.toNat / 4096))
    (hk : Mirrors memMap root a n B m k h) (hon : HeapOn a n h (L ++ [s]))
    (hrun : HeapM.extendHeap globalAllocator ⟨root⟩ r k = some (u, k'))
    (hOk : ∀ r ∈ k'.machine.requests, Granted memMap r) :
    ∃ fresh, Mirrors memMap root a (n + pagesUp r.toNat / 4096) B m k'
      (EtaOs.extendHeap r { h with fresh := fresh }) := by
  have hbelow := hrange.below
  obtain ⟨-, -, hwhole⟩ := pagesUp_spec r.toNat
  have hge := page_le_pagesUp hpos
  have hcount := pageCount_toNat (show pagesUp r.toNat < 2 ^ 64 by omega)
  obtain ⟨_, _, hget, hparts⟩ := bind_eq_some.mp hrun
  obtain ⟨rfl, rfl⟩ := Prod.mk.inj (Option.some.inj hget)
  obtain ⟨_, k₁, hloop, hlink⟩ := bind_eq_some.mp hparts
  have hmoves : Moves SameRequests
      (HeapM.linkLast (σ := PageFrameAllocator) k.heapEnd (pageRoundUp r)) := HeapM.moves_linkLast
  have hrequests : k'.machine.requests = k₁.machine.requests := hmoves k₁ u k' hlink
  have hOk₁ : ∀ r ∈ k₁.machine.requests, Granted memMap r := by rwa [← hrequests]
  have hend : k.heapEnd = heapPage a n := hk.refines.heapEnd.trans hon.stop
  rw [hcount] at hloop
  generalize hN : pagesUp r.toNat / 4096 = N at hrange hbelow hcount hloop ⊢
  -- the loop maps the pages of the extension
  let h₀ : Heap := { h with fresh := fun _ => k₁.machine.view }
  have hend₀ : h₀.heapEnd = heapPage a n := hon.stop
  have hold := hrange.mono (Nat.le_add_right n N)
  have hstopNat := hold.toNat_heapPage_of_le le_rfl
  obtain ⟨-, hglast, -⟩ := growLoop_globals (h := h₀) (n := N) (by rw [hend₀, hstopNat]; omega)
  have hpages₀ := hk.refines.shown.pages
  have hspares := Spares.growLoop hwf hpages hsize hroot hrange hpages₀ hend hloop hOk₁
  have hk₁ : Mirrors memMap root a (n + N) B m k₁ (EtaOs.growLoop N h₀) := by
    refine ⟨growLoop_refines hwf hpages hsize hroot hrange hk.refines hon.stop hloop hOk₁,
      (hspares.reserved 0 hk.null).1, fun f hf hne => ?_, hk.far.trans hspares.far⟩
    obtain ⟨hres, hsame⟩ := hk.kept f hf hne
    obtain ⟨hres', hsame'⟩ := hspares.reserved f hres
    exact ⟨hres', hsame.trans hsame'⟩
  -- the new segment is linked behind the last one
  have hls : h.lastHeader = s.addr := by simpa using hon.represents.lastHeader.symm
  obtain ⟨hz1, hz2, hz3⟩ := hon.headerIn hold (s := s) (by simp)
  have haligned := hrange.aligned
  have hb : HeaderIn a (n + N) (heapPage a n) := ⟨by omega, by omega, by omega⟩
  have hlinked := hk₁.linkLast hrange hwf hroot (b := heapPage a n) (pageRoundUp r) hb
    (by rw [hglast]; show HeaderIn a (n + N) h.lastHeader; rw [hls]; exact ⟨hz1, hz2, by omega⟩)
    (by
      rw [hglast]
      show Apart h.lastHeader 32 (heapPage a n) 32
      rw [hls]
      exact apart_of_le (by decide) (by omega) (by omega))
  rw [hend] at hlink
  refine ⟨fun _ => k₁.machine.view, ?_⟩
  show Mirrors memMap root a (n + N) B m k' (EtaOs.extendHeap r h₀)
  rw [extendHeap_eq, hcount, hend₀]
  exact hlinked.of_eq hlink

omit hsize in
/-- **A request that fits** is served on the machine as on virtual memory. -/
theorem Mirrors.malloc_fits {size : BitVec 64} {fuel : ℕ} (hrange : HeapRange memMap a n)
    (hk : Mirrors memMap root a n B m k h) (hon : HeapOn a n h segs) (hne : roundUp size ≠ 0)
    (hfit : ∃ t ∈ segs, t.Fits (roundUp size)) :
    Option.Rel (fun p q => p.1 = q.1 ∧ Mirrors memMap root a n B m p.2 q.2)
      (HeapM.malloc globalAllocator ⟨root⟩ fuel size k) (EtaOs.malloc fuel size h) := by
  cases fuel with
  | zero => exact Option.Rel.none
  | succ fuel =>
      obtain ⟨L, s, R, rfl, hL, hs⟩ := exists_first_fit hfit
      have hrel := hk.scan_start hrange hwf hroot hpages (roundUp_mod hne) hon (fuel + 1)
      -- the loop does not run off the end of the list
      obtain ⟨h₁, hfound, -⟩ := scan_first hon.represents hL hs
        (roundUp_not_lt hne) (show L.length < fuel + 1 + (L.length + 1) by omega)
      rw [HeapM.malloc, EtaOs.malloc, if_neg hne, if_neg hne, bind_apply]
      show Option.Rel _ ((HeapM.scan (fuel + 1) (roundUp size) k.heapStart >>= _) k) _
      rw [bind_apply]
      cases hrun : HeapM.scan (fuel + 1) (roundUp size) k.heapStart k with
      | none =>
          cases hscan : EtaOs.scan (fuel + 1) (roundUp size) h.heapStart h with
          | none => exact Option.Rel.none
          | some y => rw [hrun, hscan] at hrel; cases hrel
      | some x =>
          obtain ⟨o, k₁⟩ := x
          obtain ⟨h', hscan, hk₁⟩ := exists_of_rel hrel hrun
          have hsame := (scan_mono_le (Nat.le_add_right _ _) hscan).symm.trans hfound
          obtain ⟨rfl, rfl⟩ := Prod.mk.inj (Option.some.inj hsame)
          rw [hscan]
          exact Option.Rel.some ⟨rfl, hk₁⟩

omit hsize in
/-- **The loop runs off the end** when nothing fits, and then nothing has changed. -/
theorem Mirrors.scan_off {fuel : ℕ} {size : BitVec 64} {o : Option Addr}
    {k₁ : KernelHeap PageFrameAllocator} (hrange : HeapRange memMap a n)
    (hk : Mirrors memMap root a n B m k h) (hon : HeapOn a n h segs) (hne : roundUp size ≠ 0)
    (hnone : ∀ t ∈ segs, ¬ t.Fits (roundUp size))
    (hloop : HeapM.scan fuel (roundUp size) k.heapStart k = some (o, k₁)) :
    o = none ∧ EtaOs.scan fuel (roundUp size) h.heapStart h = some (none, h) ∧
      Mirrors memMap root a n B m k₁ h := by
  obtain ⟨L, s, rfl⟩ := hon.represents.exists_last
  have hrel := hk.scan_start hrange hwf hroot hpages (roundUp_mod hne) hon fuel
  obtain ⟨h₁, hscan, hk₁⟩ := exists_of_rel hrel hloop
  have hall := scan_none hon.represents hnone (show L.length < fuel + (L.length + 1) by omega)
  have hsame := (scan_mono_le (Nat.le_add_right _ _) hscan).symm.trans hall
  obtain ⟨rfl, rfl⟩ := Prod.mk.inj (Option.some.inj hsame)
  exact ⟨rfl, hscan, hk₁⟩

/-- **`malloc`**, when the list serves the request and the heap stays below `2 ^ 48`. -/
theorem Mirrors.malloc {size : BitVec 64} {fuel : ℕ} {p : Addr} (hrange : HeapRange memMap a n)
    (hk : Mirrors memMap root a n B m k h) (hon : HeapOn a n h segs) (hne : roundUp size ≠ 0)
    (hserved : Served h segs (roundUp size))
    (hlimit : (∀ t ∈ segs, ¬ t.Fits (roundUp size)) →
      h.heapEnd.toNat + pagesUp (roundUp size).toNat ≤ 2 ^ 48)
    (hrun : HeapM.malloc globalAllocator ⟨root⟩ fuel size k = some (p, k'))
    (hOk : ∀ r ∈ k'.machine.requests, Granted memMap r) :
    ∃ n' fresh h' segs', HeapRange memMap a n' ∧
      EtaOs.malloc fuel size { h with fresh := fresh } = some (p, h') ∧
      HeapOn a n' h' segs' ∧ Mirrors memMap root a n' B m k' h' := by
  by_cases hfit : ∃ t ∈ segs, t.Fits (roundUp size)
  · obtain ⟨h', hcall, hk'⟩ :=
      exists_of_rel (hk.malloc_fits hwf hpages hroot hrange hon hne hfit) hrun
    obtain ⟨segs', hon'⟩ := hon.malloc_fits hne hfit hcall
    exact ⟨n, h.fresh, h', segs', hrange, hcall, hon', hk'⟩
  have hnone : ∀ t ∈ segs, ¬ t.Fits (roundUp size) := fun t ht hfits => hfit ⟨t, ht, hfits⟩
  obtain ⟨hg, hbelowEnd⟩ := hserved.resolve_left hfit
  obtain ⟨L, s, rfl⟩ := hon.represents.exists_last
  cases fuel with
  | zero => exact absurd hrun (by rintro ⟨⟩)
  | succ fuel =>
      have hpos := roundUp_pos hne
      have hstopNat := hon.stop_toNat hrange
      have hlimit' := hlimit hnone
      obtain ⟨-, -, hwhole⟩ := pagesUp_spec (roundUp size).toNat
      have hrange' : HeapRange memMap a (n + pagesUp (roundUp size).toNat / 4096) :=
        ⟨hrange.aligned, hrange.above, by omega⟩
      -- the loop runs off the end of the list
      rw [HeapM.malloc, if_neg hne] at hrun
      obtain ⟨_, _, hget, hrun⟩ := bind_eq_some.mp hrun
      obtain ⟨rfl, rfl⟩ := Prod.mk.inj (Option.some.inj hget)
      obtain ⟨o, k₁, hloop, hrun⟩ := bind_eq_some.mp hrun
      obtain ⟨rfl, -, hk₁⟩ := hk.scan_off hwf hpages hroot hrange hon hne hnone hloop
      -- the extension, and the call behind it
      obtain ⟨_, k₂, hext, hrun⟩ := bind_eq_some.mp hrun
      have hsuffix : k₂.machine.requests <:+ k'.machine.requests :=
        HeapM.moves_malloc (R := Recorder) fuel (roundUp size) k₂ p k' hrun
      obtain ⟨fresh, hk₂⟩ := hk₁.extendHeap hwf hpages hsize hroot hpos hrange' hon hext
        fun r hr => hOk r (hsuffix.subset hr)
      have hlast : h.lastHeader = s.addr := by simpa using hon.represents.lastHeader.symm
      have hinUse : s.free = false := by
        rw [← (hon.represents.fields s (by simp)).2, ← hlast]
        exact hg.inUse
      have hon₂ := (hon.withFresh fresh).extend hrange' hinUse hpos
      have hround := roundUp_roundUp size
      have hfits : (grown { h with fresh := fresh } (roundUp size)).Fits (roundUp (roundUp size)) :=
        hround.symm ▸ grown_fits ⟨hg.inUse, hg.space, hg.room⟩
      have hfit₂ : ∃ t ∈ L ++ s :: [grown { h with fresh := fresh } (roundUp size)],
          t.Fits (roundUp (roundUp size)) := ⟨_, by simp, hfits⟩
      obtain ⟨h', hcall, hk'⟩ := exists_of_rel
        (hk₂.malloc_fits hwf hpages hroot hrange' hon₂ (hround.symm ▸ hne) hfit₂) hrun
      obtain ⟨segs', hon'⟩ := hon₂.malloc_fits (hround.symm ▸ hne) hfit₂ hcall
      -- the loop runs off the end on virtual memory too, whatever the new frames contain
      obtain ⟨-, hoff, -⟩ := (hk.withFresh fresh).scan_off hwf hpages hroot hrange
        (hon.withFresh fresh) hne hnone hloop
      refine ⟨_, fresh, h', segs', hrange', ?_, hon', hk'⟩
      rw [EtaOs.malloc, if_neg hne, hoff]
      exact hcall

omit hwf hpages hsize hroot in
/-- The merge of `free` leaves the links of a segment and of those before it. -/
theorem Represents.links_combineForward (hr : Represents h (L ++ s :: R)) :
    ∀ w ∈ L ++ [s], HeapSegHeader.next (HeapSegHeader.combineForward s.addr h).mem w.addr =
        HeapSegHeader.next h.mem w.addr ∧
      HeapSegHeader.last (HeapSegHeader.combineForward s.addr h).mem w.addr =
        HeapSegHeader.last h.mem w.addr := by
  by_cases hR : ∀ t ∈ R.head?, t.free = false
  · rw [hr.combineForward_eq hR]
    exact fun _ _ => ⟨rfl, rfl⟩
  · obtain ⟨t, R', rfl, hfree⟩ : ∃ t R', R = t :: R' ∧ t.free = true := by
      cases R with
      | nil => exact absurd (fun t ht => absurd ht (by simp)) hR
      | cons t R' =>
          refine ⟨t, R', rfl, ?_⟩
          by_contra hne
          exact hR fun u hu => by
            obtain rfl : t = u := by simpa using hu
            exact Bool.eq_false_of_not_eq_true hne
    obtain ⟨hself, hother⟩ := hr.header_merge (g := h) (fun _ _ => rfl)
      (hr.header_length (s := t) (by simp)) hfree
    intro w hw
    simp only [next_eq, last_eq]
    rcases List.mem_append.mp hw with hw | hw
    · rw [hother w hw]
      exact ⟨rfl, rfl⟩
    · rw [List.mem_singleton.mp hw, hself]
      exact ⟨rfl, rfl⟩

omit hpages hsize in
/-- **`free`**, on an aligned list. -/
theorem Mirrors.freeSegment (hrange : HeapRange memMap a n) (hk : Mirrors memMap root a n B m k h)
    (hon : HeapOn a n h (L ++ s :: R)) :
    Returns (KernelHeap.free (s.addr + 32)) k fun _ k' =>
      Mirrors memMap root a n B m k' (EtaOs.free (s.addr + 32) h) := by
  have hseg : s.addr + 32 - 32 = s.addr := by bv_omega
  unfold KernelHeap.free EtaOs.free
  rw [hseg]
  have hin := hon.headerIn hrange (s := s) (by simp)
  refine (hk.setFree hrange hwf hroot hin true).bind ?_
  rintro _ k₁ hk₁
  -- the flag is set, and the rest of the list is as it was
  let s₁ : Segment := { s with free := true }
  let h₁ : Heap := { h with mem := HeapSegHeader.setFree h.mem s.addr true }
  have hon₁ : HeapOn a n h₁ (L ++ s₁ :: R) := by
    refine ⟨hon.represents.setFree true, fun t ht => ?_, hon.start, hon.stop⟩
    have hcases : t ∈ L ∨ t = s₁ ∨ t ∈ R := by simpa using ht
    rcases hcases with ht | rfl | ht
    · exact hon.aligned t (by simp [ht])
    · exact hon.aligned s (by simp)
    · exact hon.aligned t (by simp [ht])
  have hnext := hon₁.represents.next_eq_behind
  have hlast := hon₁.represents.last_eq_before
  have hbehind : behind R ≠ 0 → HeaderIn a n (behind R) :=
    (hon₁.behind_headerIn hrange).resolve_left
  refine (hk₁.combineForward hrange hwf hroot hin ?_ ?_).bind ?_
  · rw [hnext]
    exact hbehind
  · rw [hnext]
    intro hne hne'
    cases R with
    | nil => exact absurd rfl hne
    | cons t R =>
        have hon₂ : HeapOn a n h₁ ((L ++ [s₁]) ++ t :: R) := by rwa [List.append_assoc]
        have hnext₂ : HeapSegHeader.next h₁.mem (behind (t :: R)) = behind R :=
          hon₂.represents.next_eq_behind
        rw [hnext₂] at hne' ⊢
        exact (hon₂.behind_headerIn hrange).resolve_left hne'
  rintro _ k₂ hk₂
  -- the merge leaves the links of the segment and of the one before it
  have hlinks := hon₁.represents.links_combineForward
  obtain ⟨hnext', hlast'⟩ := hlinks s₁ (by simp)
  refine hk₂.combineBackward hrange hwf hroot hin ?_ ?_ ?_
  · rw [hlast', hlast]
    exact hon₁.before_headerIn hrange
  · rw [hlast', hlast]
    rcases List.eq_nil_or_concat L with rfl | ⟨L, t, rfl⟩
    · exact fun hne => absurd rfl hne
    · intro _
      rw [List.concat_eq_append] at hon₁ hlinks ⊢
      have haddr : ((L ++ [t]).map Segment.addr).getLastD 0 = t.addr := by simp
      have hon₂ : HeapOn a n h₁ (L ++ t :: s₁ :: R) := by
        rw [List.append_assoc] at hon₁
        exact hon₁
      rw [haddr, (hlinks t (by simp)).1, hon₂.represents.next_eq_behind]
      rfl
  · rw [hnext', hnext]
    exact hbehind

end Operations

end EtaOs
