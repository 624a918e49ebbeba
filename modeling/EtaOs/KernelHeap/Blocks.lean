import EtaOs.KernelHeap.Backing
import EtaOs.KernelHeap.MallocFree
import EtaOs.Library.Simulation

/-!
# The heap is a memory of separate blocks

What the heap is for: a program that holds blocks stores bytes in them and loads them again,
and a block has nothing to do with any other.  The machine has one physical memory, in which
the blocks share pages with one another and with the headers, and in which the page tables and
the bitmap lie as well.  The machine simulates the memory of blocks in every run of `malloc`,
`free`, stores and loads whose calls keep the payloads apart.

* `BlockStore`, `BlockStore.Step`: the memory of blocks.
* `KernelState`, `KernelUse`: the machine and the live blocks.
* `KeepsBlocks`: the calls that keep the payloads apart, read through the page tables.
* `BlockInv`: the invariant.
* `BlockInv.store`, `BlockInv.free`, `BlockInv.malloc`: what each use does to the bytes.
* `blockStore_step`: one use of the machine is a use of the memory of blocks.
-/

namespace EtaOs

open ByteMemory Fallible RadixTree Simulation

/-! ## The memory of blocks -/

/-- The uses of the heap: the calls with what they return, and the bytes stored and loaded. -/
inductive BlockOp
  | malloc (size : BitVec 64) (p : Addr)
  | free (b : Block)
  | store (b : Block) (i : ℕ) (v : BitVec 8)
  | load (b : Block) (i : ℕ) (v : BitVec 8)

/-- Live blocks, and the bytes of each. -/
structure BlockStore where
  live : List Block
  bytes : Block → ℕ → BitVec 8

/-- One use of the memory of blocks.  A new block shares no byte with a live one, and holds
any bytes; a store changes one byte of one block. -/
inductive BlockStore.Step : BlockStore → BlockOp → BlockStore → Prop
  | null (t : BlockStore) (size : BitVec 64) : Step t (.malloc size 0) t
  | malloc (t : BlockStore) (b : Block) (fresh : ℕ → BitVec 8) (hnull : b.ptr ≠ 0)
      (hapart : ∀ c ∈ t.live, Disjoint b.payload c.payload) :
      Step t (.malloc b.size b.ptr) ⟨b :: t.live, Function.update t.bytes b fresh⟩
  | free (t : BlockStore) (b : Block) (hb : b ∈ t.live) :
      Step t (.free b) ⟨t.live.erase b, t.bytes⟩
  | store (t : BlockStore) (b : Block) (i : ℕ) (v : BitVec 8) (hb : b ∈ t.live)
      (hi : i < b.size.toNat) :
      Step t (.store b i v)
        ⟨t.live, Function.update t.bytes b (Function.update (t.bytes b) i v)⟩
  | load (t : BlockStore) (b : Block) (i : ℕ) (hb : b ∈ t.live) (hi : i < b.size.toNat) :
      Step t (.load b i (t.bytes b i)) t

/-! ## The machine -/

/-- The machine with the globals of the heap, and the live blocks. -/
structure KernelState where
  heap : KernelHeap PageFrameAllocator
  live : List Block

/-- The address of a byte of a block. -/
def Block.addr (b : Block) (i : ℕ) : Addr := b.ptr + BitVec.ofNat 64 i

/-- One use of the heap on the machine, which returns. -/
inductive KernelUse (ptm : PageTableManager) : KernelState → BlockOp → KernelState → Prop
  | malloc (s : KernelState) (size : BitVec 64) (fuel : ℕ) (p : Addr)
      (k : KernelHeap PageFrameAllocator)
      (hrun : HeapM.malloc globalAllocator ptm fuel size s.heap = some (p, k)) :
      KernelUse ptm s (.malloc size p) ⟨k, if p = 0 then s.live else ⟨p, size⟩ :: s.live⟩
  | free (s : KernelState) (b : Block) (k : KernelHeap PageFrameAllocator) (hb : b ∈ s.live)
      (hrun : KernelHeap.free b.ptr s.heap = some ((), k)) :
      KernelUse ptm s (.free b) ⟨k, s.live.erase b⟩
  | store (s : KernelState) (b : Block) (i : ℕ) (v : BitVec 8) (k : KernelHeap PageFrameAllocator)
      (hb : b ∈ s.live) (hi : i < b.size.toNat)
      (hrun : HeapM.store8 (b.addr i) v s.heap = some ((), k)) :
      KernelUse ptm s (.store b i v) ⟨k, s.live⟩
  | load (s : KernelState) (b : Block) (i : ℕ) (v : BitVec 8) (k : KernelHeap PageFrameAllocator)
      (hb : b ∈ s.live) (hi : i < b.size.toNat)
      (hrun : HeapM.load8 (b.addr i) s.heap = some (v, k)) :
      KernelUse ptm s (.load b i v) ⟨k, s.live⟩

/-- The heap as a program sees it, through the page tables. -/
def KernelHeap.seen (k : KernelHeap PageFrameAllocator) : Heap where
  mem := k.machine.view
  fresh := fun _ => k.machine.view
  taken := 0
  heapStart := k.heapStart
  heapEnd := k.heapEnd
  lastHeader := k.lastHeader

/-- The state of the heap as a program sees it. -/
def KernelState.seen (s : KernelState) : HeapState := ⟨s.heap.seen, s.live⟩

/-- The uses that keep the payloads apart and the heap below `2 ^ 48`. -/
def KeepsBlocks (s : KernelState) : BlockOp → Prop
  | .malloc size _ => KeepsPayloads s.seen (.malloc size) ∧
      (roundUp size = 0 ∨ (∃ a, Met s.heap.seen a ∧ FitsAt s.heap.seen (roundUp size) a) ∨
        s.heap.heapEnd.toNat + pagesUp (roundUp size).toNat ≤ 2 ^ 48)
  | .free b => KeepsPayloads s.seen (.free b)
  | .store _ _ _ => True
  | .load _ _ _ => True

variable {memMap : List EfiMemoryDescriptor} {root a : BitVec 64} {n : ℕ} {B : Set (BitVec 64)}
  {m : Mem} {k k' : KernelHeap PageFrameAllocator} {h : Heap} {segs : List Segment}
  {live : List Block} {b : Block} {s s' : KernelState}

/-! ## The heap that is seen -/

/-- The bytes of the heap are those seen through the page tables. -/
theorem Shown.view_eq {v : Mem} {x : Addr} {s : Kernel} (hrange : HeapRange memMap a n)
    (hshown : Shown memMap root a n v s) (hstart : a.toNat ≤ x.toNat)
    (hstop : x.toNat < a.toNat + 4096 * n) : s.load8 x = some (v x) ∧ s.view x = v x := by
  have hload := hshown.load8 hrange (hrange.onPage (Or.inr rfl) hstart (by omega))
  refine ⟨hload, ?_⟩
  unfold Machine.load8 at hload
  rw [Machine.view, hload]
  rfl

/-- Headers in the heap that agree, with the same globals, show the same list. -/
theorem Represents.congr_header {h' : Heap} (hr : Represents h segs)
    (hheader : ∀ t ∈ segs, header h'.mem t.addr = header h.mem t.addr)
    (hstart : h'.heapStart = h.heapStart) (hstop : h'.heapEnd = h.heapEnd)
    (hlast : h'.lastHeader = h.lastHeader) : Represents h' segs := by
  refine hr.of_header rfl hstart hlast ?_ fun t ht => ?_
  · rw [hstop]
    exact hr.tiles
  · rw [hheader t ht]
    exact hr.header_eq ht

/-- Two lists that one heap shows have the same headers. -/
theorem HeapOn.of_represents {segs' : List Segment} (hon : HeapOn a n h segs)
    (hr : Represents h segs') : HeapOn a n h segs' where
  represents := hr
  aligned := by
    intro t ht
    obtain ⟨u, hu, heq⟩ := hon.represents.met_iff.mp (hr.met_iff.mpr ⟨t, ht, rfl⟩)
    rw [← heq]
    exact hon.aligned u hu
  start := hon.start
  stop := hon.stop

/-- **What the machine mirrors is what is seen of it.** -/
theorem Mirrors.seen (hrange : HeapRange memMap a n) (hk : Mirrors memMap root a n B m k h)
    (hon : HeapOn a n h segs) :
    Mirrors memMap root a n B m k k.seen ∧ HeapOn a n k.seen segs := by
  have hshown := hk.refines.shown
  have hstart : k.heapStart = h.heapStart := hk.refines.heapStart
  have hstop : k.heapEnd = h.heapEnd := hk.refines.heapEnd
  refine ⟨⟨⟨⟨hshown.pages, hshown.pages.shows_view hrange⟩, rfl, rfl, rfl⟩, hk.null, hk.kept,
    hk.far⟩, ⟨?_, hon.aligned, hstart.trans hon.start, hstop.trans hon.stop⟩⟩
  refine hon.represents.congr_header (fun t ht => header_congr fun x hx => ?_) hstart hstop
    hk.refines.lastHeader
  obtain ⟨haligned, hlo, hhi⟩ := hon.headerIn hrange ht
  have hbelow := hrange.below
  exact (hshown.view_eq hrange (by bv_omega) (by bv_omega)).2

/-! ## The invariant -/

/-- **The invariant of the machine and its blocks.**  Seen through the page tables the heap is
an aligned list of segments in which every live block owns one. -/
structure BlockInv (memMap : List EfiMemoryDescriptor) (root a : BitVec 64) (B : Set (BitVec 64))
    (m : Mem) (n : ℕ) (segs : List Segment) (s : KernelState) : Prop where
  range : HeapRange memMap a n
  mirrors : Mirrors memMap root a n B m s.heap s.heap.seen
  on : HeapOn a n s.heap.seen segs
  payloads : PayloadInv s.seen segs

/-- A heap on virtual memory that has the invariant gives it to the machine. -/
theorem BlockInv.of_mirrors (hrange : HeapRange memMap a n) (hk : Mirrors memMap root a n B m k h)
    (hon : HeapOn a n h segs) (hi : PayloadInv ⟨h, live⟩ segs) :
    BlockInv memMap root a B m n segs ⟨k, live⟩ := by
  obtain ⟨hseen, hon'⟩ := hk.seen hrange hon
  refine ⟨hrange, hseen, hon', hon'.represents, ?_, hi.owned, hi.distinct⟩
  show k.heapEnd.toNat % 4096 = 0
  rw [hk.refines.heapEnd]
  exact hi.aligned

namespace BlockInv

variable (hinv : BlockInv memMap root a B m n segs s)

include hinv

/-- The bytes of a live block lie in the heap. -/
theorem addr_toNat (hb : b ∈ s.live) {i : ℕ} (hi : i < b.size.toNat) :
    (b.addr i).toNat = b.ptr.toNat + i ∧ a.toNat ≤ b.ptr.toNat ∧
      b.ptr.toNat + i < a.toNat + 4096 * n := by
  obtain ⟨t, ht, hown⟩ := hinv.payloads.owned b hb
  obtain ⟨hptr, hend⟩ := hinv.payloads.payload_bounds ht hown
  obtain ⟨hlo, hhi⟩ := hinv.on.represents.bounds ht
  have hbelow := hinv.range.below
  rw [hinv.on.start] at hlo
  rw [hinv.on.stop_toNat hinv.range] at hhi
  unfold Segment.hi at hend
  refine ⟨?_, by omega, by omega⟩
  unfold Block.addr
  rw [BitVec.toNat_add, BitVec.toNat_ofNat]
  omega

/-- **Loads from live blocks do not fault**, and read what is seen. -/
theorem load8 (hb : b ∈ s.live) {i : ℕ} (hi : i < b.size.toNat) :
    s.heap.machine.load8 (b.addr i) = some (s.heap.machine.view (b.addr i)) := by
  obtain ⟨hval, hlo, hhi⟩ := hinv.addr_toNat hb hi
  exact (hinv.mirrors.refines.shown.view_eq hinv.range (by omega) (by omega)).1

/-- Bytes of different live blocks are different bytes. -/
theorem addr_ne {c : Block} (hb : b ∈ s.live) (hc : c ∈ s.live) (hne : b ≠ c) {i j : ℕ}
    (hi : i < b.size.toNat) (hj : j < c.size.toNat) : b.addr i ≠ c.addr j := by
  obtain ⟨hbval, -, -⟩ := hinv.addr_toNat hb hi
  obtain ⟨hcval, -, -⟩ := hinv.addr_toNat hc hj
  have : Std.Symm fun b c : Block => Disjoint b.payload c.payload := ⟨fun _ _ hxy => hxy.symm⟩
  have hdisjoint := hinv.payloads.payloadsApart.disjoint.forall hb hc hne
  intro heq
  rw [heq] at hbval
  have hmem : (c.addr j).toNat ∈ b.payload := Set.mem_Ico.mpr ⟨by omega, by omega⟩
  exact Set.disjoint_left.mp hdisjoint hmem (Set.mem_Ico.mpr ⟨by omega, by omega⟩)

end BlockInv

/-! ## One use -/

/-- The blocks are the live ones, and hold what is seen. -/
structure Holds (s : KernelState) (t : BlockStore) : Prop where
  live : t.live = s.live
  bytes : ∀ b ∈ s.live, ∀ i < b.size.toNat, s.heap.machine.view (b.addr i) = t.bytes b i

/-- The contents of the frames to come are no part of the condition. -/
theorem KeepsPayloads.withFresh {op : HeapOp} (hkeeps : KeepsPayloads ⟨h, live⟩ op)
    (fresh : ℕ → Mem) : KeepsPayloads ⟨{ h with fresh := fresh }, live⟩ op := by
  cases op with
  | free b => exact hkeeps
  | malloc size =>
      rcases hkeeps with h0 | ⟨b, hfirst, hne⟩ | ⟨hnone, hg, hroom⟩
      · exact Or.inl h0
      · exact Or.inr (Or.inl ⟨b, hfirst, hne⟩)
      · exact Or.inr (Or.inr ⟨hnone, ⟨hg.inUse, hg.space, hg.room⟩, hroom⟩)

namespace BlockInv

section Machine

variable (hwf : WellFormedMap memMap) (hpages : 1 ≤ totalFrames memMap)
  (hsize : (totalMem memMap).toNat ≤ 2 ^ 48) (hroot : IsFrame root)
  (hinv : BlockInv memMap root a B m n segs s)

include hwf hroot hinv

/-- **A store to a live block** changes the byte it stores to and no other byte of the heap. -/
theorem store (hb : b ∈ s.live) {i : ℕ} (hi : i < b.size.toNat) (v : BitVec 8) :
    Returns (HeapM.store8 (b.addr i) v) s.heap fun _ k' =>
      BlockInv memMap root a B m n segs ⟨k', s.live⟩ ∧ ∀ c ∈ s.live, ∀ j < c.size.toNat,
        k'.machine.view (c.addr j) =
          if c.addr j = b.addr i then v else s.heap.machine.view (c.addr j) := by
  obtain ⟨hval, hlo, hhi⟩ := hinv.addr_toNat hb hi
  have hx : OnPage a n (b.addr i) 1 := hinv.range.onPage (Or.inr rfl) (by omega) (by omega)
  refine (hinv.mirrors.store8 hinv.range hwf hroot hx v).mono fun _ k' hk' => ?_
  obtain ⟨t, ht, hown⟩ := hinv.payloads.owned b hb
  obtain ⟨hptr, hend⟩ := hinv.payloads.payload_bounds ht hown
  -- no header contains the byte
  have hheader : ∀ u ∈ segs, Apart (b.addr i) 1 u.addr 32 := by
    intro u hu
    have huhi := hinv.on.represents.hi_lt hu
    have hthi := hinv.on.represents.hi_lt ht
    unfold Segment.hi at huhi hend hthi
    rcases hinv.on.represents.tiles.eq_or_apart ht hu with rfl | hor
    · constructor <;> bv_omega
    · unfold Segment.lo Segment.hi at hor
      constructor <;> bv_omega
  have hon : HeapOn a n { s.heap.seen with mem := ByteMemory.store8 s.heap.seen.mem (b.addr i) v }
      segs := by
    refine ⟨?_, hinv.on.aligned, hinv.on.start, hinv.on.stop⟩
    exact hinv.on.represents.congr_header
      (fun u hu => header_congr (sameOn_store8 v (hheader u hu))) rfl rfl rfl
  refine ⟨BlockInv.of_mirrors hinv.range hk' hon
    ⟨hon.represents, hinv.payloads.aligned, hinv.payloads.owned, hinv.payloads.distinct⟩, ?_⟩
  intro c hc j hj
  obtain ⟨hcval, hclo, hchi⟩ := hinv.addr_toNat hc hj
  exact (hk'.refines.shown.view_eq hinv.range (by omega) (by omega)).2

/-- **`free` of a live block** between neighbours in use returns, and leaves the bytes of the
live blocks. -/
theorem free (hb : b ∈ s.live) (hfree : NeighboursInUse s.heap.seen b.ptr) :
    Returns (KernelHeap.free b.ptr) s.heap fun _ k' =>
      (∃ segs', BlockInv memMap root a B m n segs' ⟨k', s.live.erase b⟩) ∧
        ∀ c ∈ s.live, ∀ j < c.size.toNat,
          k'.machine.view (c.addr j) = s.heap.machine.view (c.addr j) := by
  obtain ⟨t, ht, -, hptr, -⟩ := hinv.payloads.owned b hb
  obtain ⟨L, R, hsplit⟩ := List.append_of_mem ht
  subst hsplit
  obtain ⟨segs', hi⟩ := hinv.payloads.free hb hfree
  have hon := hinv.on
  rw [hptr] at hfree hi ⊢
  refine (hinv.mirrors.freeSegment hwf hroot hinv.range hon).mono fun _ k' hk' => ?_
  have hsame := free_sameHeap (t.addr + 32) s.heap.seen
  obtain ⟨hrelease, -, -⟩ := free_step hon.represents hfree
  have hreleased : AlignedHeaders (L ++ { t with free := true } :: R) := by
    intro w hw
    have hcases : w ∈ L ∨ w = { t with free := true } ∨ w ∈ R := by simpa using hw
    rcases hcases with hw | rfl | hw
    · exact hon.aligned w (by simp [hw])
    · exact hon.aligned t (by simp)
    · exact hon.aligned w (by simp [hw])
  have hon' : HeapOn a n (EtaOs.free (t.addr + 32) s.heap.seen) segs' :=
    HeapOn.of_represents ⟨hrelease, hreleased, hsame.heapStart.trans hon.start,
      hsame.heapEnd.trans hon.stop⟩ hi.represents
  refine ⟨⟨segs', BlockInv.of_mirrors hinv.range hk' hon' hi⟩, fun c hc j hj => ?_⟩
  obtain ⟨hcval, hclo, hchi⟩ := hinv.addr_toNat hc hj
  rw [(hk'.refines.shown.view_eq hinv.range (by omega) (by omega)).2]
  obtain ⟨u, hu, hown⟩ := hinv.payloads.owned c hc
  obtain ⟨hcptr, hcend⟩ := hinv.payloads.payload_bounds hu hown
  have hkept := free_kept hon.represents hfree hu
  refine hkept _ ?_
  have hle : c.size.toNat ≤ u.length.toNat := hown.2.2
  have hptr' := hown.2.1
  bv_omega

include hpages

/-- **A request that fits** is served by the machine as by the heap that is seen. -/
theorem malloc_returns {size : BitVec 64} {fuel : ℕ} {p : Addr} {h : Heap}
    (hne : roundUp size ≠ 0) (hfit : ∃ t ∈ segs, t.Fits (roundUp size))
    (hmalloc : EtaOs.malloc fuel size s.heap.seen = some (p, h)) :
    ∃ k, HeapM.malloc globalAllocator ⟨root⟩ fuel size s.heap = some (p, k) ∧
      ∀ r ∈ k.machine.requests, Granted memMap r := by
  have hrel : Option.Rel _ (HeapM.malloc globalAllocator ⟨root⟩ fuel size s.heap) _ :=
    hinv.mirrors.malloc_fits hwf hpages hroot hinv.range hinv.on hne hfit
  rw [hmalloc] at hrel
  cases hrun : HeapM.malloc globalAllocator ⟨root⟩ fuel size s.heap with
  | none =>
      rw [hrun] at hrel
      cases hrel
  | some x =>
      rw [hrun] at hrel
      cases hrel with
      | some hpq =>
          obtain ⟨q, k⟩ := x
          obtain ⟨rfl, hk⟩ := hpq
          exact ⟨k, rfl, fun r hr => (hk.refines.shown.pages.identity.tables.given r hr).2⟩

include hsize

/-- **`malloc`** that returns leaves the bytes of the live blocks. -/
theorem malloc {size : BitVec 64} {fuel : ℕ} {p : Addr}
    (hkeeps : KeepsBlocks s (.malloc size p))
    (hrun : HeapM.malloc globalAllocator ⟨root⟩ fuel size s.heap = some (p, k'))
    (hOk : ∀ r ∈ k'.machine.requests, Granted memMap r) :
    (∃ n' segs', BlockInv memMap root a B m n' segs'
        ⟨k', if p = 0 then s.live else ⟨p, size⟩ :: s.live⟩) ∧
      ∀ c ∈ s.live, ∀ j < c.size.toNat,
        k'.machine.view (c.addr j) = s.heap.machine.view (c.addr j) := by
  obtain ⟨hpayloads, hlimit⟩ := hkeeps
  by_cases h0 : roundUp size = 0
  · -- a size that wraps to zero gets `NULL`, and nothing happens
    cases fuel with
    | zero => exact absurd hrun (by rintro ⟨⟩)
    | succ fuel =>
        rw [HeapM.malloc, if_pos h0] at hrun
        obtain ⟨rfl, rfl⟩ := Prod.mk.inj (Option.some.inj hrun)
        exact ⟨⟨n, segs, hinv⟩, fun _ _ _ _ => rfl⟩
  have hmore : TakesMore s.heap.seen (roundUp size) := hpayloads.resolve_left h0
  have hserved := hinv.payloads.served hmore
  have hstop : (∀ t ∈ segs, ¬ t.Fits (roundUp size)) →
      s.heap.seen.heapEnd.toNat + pagesUp (roundUp size).toNat ≤ 2 ^ 48 := by
    intro hnone
    rcases hlimit.resolve_left h0 with ⟨x, hmet, hfits⟩ | hle
    · obtain ⟨u, hu, rfl⟩ := hinv.on.represents.met_iff.mp hmet
      exact absurd ((hinv.on.represents.fitsAt_iff hu).mp hfits) (hnone u hu)
    · exact hle
  obtain ⟨n', fresh, h', segs₁, hrange', hcall, hon', hk'⟩ :=
    hinv.mirrors.malloc hwf hpages hsize hroot hinv.range hinv.on h0 hserved hstop hrun hOk
  have hold : PayloadInv ⟨{ s.heap.seen with fresh := fresh }, s.live⟩ segs :=
    ⟨(hinv.on.withFresh fresh).represents, hinv.payloads.aligned, hinv.payloads.owned,
      hinv.payloads.distinct⟩
  have hpayloads' := KeepsPayloads.withFresh (h := s.heap.seen) hpayloads fresh
  obtain ⟨segs', hi⟩ := hold.malloc hpayloads' hcall
  have hnew := BlockInv.of_mirrors hrange' hk' (hon'.of_represents hi.represents) hi
  refine ⟨⟨n', segs', hnew⟩, fun c hc j hj => ?_⟩
  have hc' : c ∈ if p = 0 then s.live else ⟨p, size⟩ :: s.live := by
    split
    · exact hc
    · exact List.mem_cons_of_mem _ hc
  obtain ⟨hcval, hclo, hchi⟩ := hnew.addr_toNat hc' hj
  rw [(hk'.refines.shown.view_eq hrange' (by omega) (by omega)).2]
  obtain ⟨u, hu, hused, hptr, hsize'⟩ := hinv.payloads.owned c hc
  have hkept := malloc_kept hold.represents hold.aligned h0
    (hold.served (hpayloads'.resolve_left h0)) hcall hu hused
  refine hkept _ ?_
  have hle : c.size.toNat ≤ u.length.toNat := hsize'
  bv_omega

end Machine

end BlockInv

section Simulation

variable (hwf : WellFormedMap memMap) (hpages : 1 ≤ totalFrames memMap)
  (hsize : (totalMem memMap).toNat ≤ 2 ^ 48) (hroot : IsFrame root)

include hwf hpages hsize hroot

/-- **One use of the machine** is a use of the memory of blocks. -/
theorem blockStore_step {op : BlockOp} {t : BlockStore}
    (hinv : ∃ n segs, BlockInv memMap root a B m n segs s) (hholds : Holds s t)
    (huse : KernelUse ⟨root⟩ s op s') (hkeeps : KeepsBlocks s op)
    (hOk : ∀ r ∈ s'.heap.machine.requests, Granted memMap r) :
    ∃ t', BlockStore.Step t op t' ∧ (∃ n segs, BlockInv memMap root a B m n segs s') ∧
      Holds s' t' := by
  obtain ⟨n, segs, hinv⟩ := hinv
  obtain ⟨live, bytes⟩ := t
  obtain ⟨hlive, hbytes⟩ := hholds
  obtain rfl : live = s.live := hlive
  cases huse with
  | malloc size fuel p k' hrun =>
      obtain ⟨⟨n', segs', hinv'⟩, hsame⟩ := hinv.malloc hwf hpages hsize hroot hkeeps hrun hOk
      by_cases hp : p = 0
      · subst hp
        rw [if_pos rfl] at hinv' ⊢
        refine ⟨_, BlockStore.Step.null _ size, ⟨n', segs', hinv'⟩, rfl, fun c hc j hj => ?_⟩
        exact (hsame c hc j hj).trans (hbytes c hc j hj)
      · rw [if_neg hp] at hinv' ⊢
        have happ := List.pairwise_cons.mp hinv'.payloads.payloadsApart.disjoint
        have hne : ∀ c ∈ s.live, c ≠ ⟨p, size⟩ := by
          rintro c hc rfl
          exact (List.pairwise_cons.mp hinv'.payloads.distinct).1 _ hc rfl
        refine ⟨_, BlockStore.Step.malloc _ ⟨p, size⟩
          (fun j => k'.machine.view (Block.addr ⟨p, size⟩ j)) hp happ.1, ⟨n', segs', hinv'⟩, rfl,
          fun c hc j hj => ?_⟩
        dsimp only
        rcases List.mem_cons.mp hc with rfl | hc
        · rw [Function.update_self]
        · rw [Function.update_of_ne (hne c hc)]
          exact (hsame c hc j hj).trans (hbytes c hc j hj)
  | free b k' hb hrun =>
      obtain ⟨⟨segs', hinv'⟩, hsame⟩ := (hinv.free hwf hroot hb hkeeps).of_eq hrun
      refine ⟨_, BlockStore.Step.free _ b hb, ⟨n, segs', hinv'⟩, rfl, fun c hc j hj => ?_⟩
      have hc' := List.mem_of_mem_erase hc
      exact (hsame c hc' j hj).trans (hbytes c hc' j hj)
  | store b i v k' hb hi hrun =>
      obtain ⟨hinv', hstore⟩ := (hinv.store hwf hroot hb hi v).of_eq hrun
      refine ⟨_, BlockStore.Step.store _ b i v hb hi, ⟨n, segs, hinv'⟩, rfl, fun c hc j hj => ?_⟩
      dsimp only
      rw [hstore c hc j hj]
      by_cases hcb : c = b
      · subst hcb
        have hiff : c.addr j = c.addr i ↔ j = i := by
          have hci := (hinv.addr_toNat hb hi).1
          have hcj := (hinv.addr_toNat hc hj).1
          constructor
          · intro heq
            rw [heq] at hcj
            omega
          · rintro rfl
            rfl
        rw [Function.update_self]
        by_cases hji : j = i
        · subst hji
          rw [if_pos rfl, Function.update_self]
        · rw [if_neg fun heq => hji (hiff.mp heq), Function.update_of_ne hji]
          exact hbytes c hc j hj
      · rw [Function.update_of_ne hcb, if_neg (hinv.addr_ne hc hb hcb hj hi)]
        exact hbytes c hc j hj
  | load b i v k' hb hi hrun =>
      have hload := hinv.load8 hb hi
      rw [HeapM.load8, hload, Option.map_some] at hrun
      obtain ⟨rfl, rfl⟩ := Prod.mk.inj (Option.some.inj hrun)
      rw [hbytes b hb i hi]
      exact ⟨_, BlockStore.Step.load _ b i hb hi, ⟨n, segs, hinv⟩, rfl, hbytes⟩

end Simulation

end EtaOs
