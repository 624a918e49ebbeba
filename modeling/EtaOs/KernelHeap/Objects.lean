import EtaOs.KernelHeap.BlockRuns
import EtaOs.KernelHeap.Frames

/-!
# The memory of the kernel is a memory of separate objects

The heap takes its frames from the allocator from which the rest of the kernel takes frames, and
its pages are mapped in the tables in which the rest of the kernel maps pages.  What a program
makes of this memory is simpler: blocks and frames that it has been given, each a row of bytes of
its own, whatever is mapped meanwhile.

The kernel also writes to memory that nobody has given it: its variables lie in the frames of its
image, its stack in a frame that the firmware has left it, and what it prints in the framebuffer.
These frames are the set `own`, and a store to one of them is a step like the others.  The memory
of objects takes no notice of it, as no object lies there.

* `Objects`, `Objects.Step`: the memory of objects.
* `MemoryState`, `MemoryUse`: the machine, with the live blocks and the frames requested.
* `OwnFrames`: what is asked of the frames that the kernel writes to on its own account.
* `MemoryInv`: the invariant; `K` are frames that were taken before, and that nobody writes to but
  for those that are the kernel's own.
* `objects_step`: one use of the machine is a use of the memory of objects.
* `memoryUses_run`: and so is every run, in any order of the uses.
-/

namespace EtaOs

open ByteMemory Fallible RadixTree Simulation

/-! ## The memory of objects -/

/-- The uses of memory: those of the heap, a call of `request_page` with what it returns, the
bytes stored in a frame and loaded from it, a call of `map_mem`, and a byte that the kernel stores
in memory of its own. -/
inductive MemoryOp
  | block (op : BlockOp)
  | request (f : BitVec 64)
  | put (f : BitVec 64) (i : ℕ) (v : BitVec 8)
  | get (f : BitVec 64) (i : ℕ) (v : BitVec 8)
  | map (virtMem physMem : BitVec 64)
  | own (p : Addr) (v : BitVec 8)

/-- Live blocks and frames, and the bytes of each. -/
structure Objects where
  blocks : BlockStore
  frames : List (BitVec 64)
  contents : BitVec 64 → ℕ → BitVec 8

/-- One use of the memory of objects.  A new frame is none of those given before, and holds any
bytes; a store changes one byte of one object; a mapping changes nothing, and neither does a store
of the kernel's own. -/
inductive Objects.Step : Objects → MemoryOp → Objects → Prop
  | block (t : Objects) (op : BlockOp) (blocks : BlockStore)
      (h : BlockStore.Step t.blocks op blocks) :
      Step t (.block op) { t with blocks := blocks }
  | request (t : Objects) (f : BitVec 64) (fresh : ℕ → BitVec 8) (hnull : f ≠ 0)
      (hnew : f ∉ t.frames) :
      Step t (.request f) ⟨t.blocks, f :: t.frames, Function.update t.contents f fresh⟩
  | put (t : Objects) (f : BitVec 64) (i : ℕ) (v : BitVec 8) (hf : f ∈ t.frames) (hi : i < 4096) :
      Step t (.put f i v) { t with
        contents := Function.update t.contents f (Function.update (t.contents f) i v) }
  | get (t : Objects) (f : BitVec 64) (i : ℕ) (hf : f ∈ t.frames) (hi : i < 4096) :
      Step t (.get f i (t.contents f i)) t
  | map (t : Objects) (virtMem physMem : BitVec 64) : Step t (.map virtMem physMem) t
  | own (t : Objects) (p : Addr) (v : BitVec 8) : Step t (.own p v) t

/-! ## The machine -/

/-- The machine with the live blocks, and the frames that were requested beside the heap. -/
structure MemoryState where
  blocks : KernelState
  frames : List (BitVec 64)

/-- The machine of a state. -/
abbrev MemoryState.machine (s : MemoryState) : Kernel := s.blocks.heap.machine

/-- The address of a byte of a frame. -/
def frameByte (f : BitVec 64) (i : ℕ) : Addr := f + BitVec.ofNat 64 i

/-- One use of memory on the machine, which returns.  The uses of the heap keep the blocks
apart.  A page is mapped outside the heap, and a page of memory to itself only.  A store of the
kernel's own goes through a pointer that leads into a frame of `own`. -/
inductive MemoryUse (memMap : List EfiMemoryDescriptor) (own : Set (BitVec 64))
    (ptm : PageTableManager) : MemoryState → MemoryOp → MemoryState → Prop
  | block (s : MemoryState) (op : BlockOp) (b : KernelState) (h : BlockUse ptm s.blocks op b) :
      MemoryUse memMap own ptm s (.block op) ⟨b, s.frames⟩
  | request (s : MemoryState) (f : BitVec 64) (k : KernelHeap PageFrameAllocator)
      (hrun : HeapM.requestPage globalAllocator s.blocks.heap = some (f, k)) :
      MemoryUse memMap own ptm s (.request f) ⟨⟨k, s.blocks.live⟩, f :: s.frames⟩
  | put (s : MemoryState) (f : BitVec 64) (i : ℕ) (v : BitVec 8) (k : KernelHeap PageFrameAllocator)
      (hf : f ∈ s.frames) (hi : i < 4096)
      (hrun : HeapM.store8 (frameByte f i) v s.blocks.heap = some ((), k)) :
      MemoryUse memMap own ptm s (.put f i v) ⟨⟨k, s.blocks.live⟩, s.frames⟩
  | get (s : MemoryState) (f : BitVec 64) (i : ℕ) (v : BitVec 8) (k : KernelHeap PageFrameAllocator)
      (hf : f ∈ s.frames) (hi : i < 4096)
      (hrun : HeapM.load8 (frameByte f i) s.blocks.heap = some (v, k)) :
      MemoryUse memMap own ptm s (.get f i v) ⟨⟨k, s.blocks.live⟩, s.frames⟩
  | map (s : MemoryState) (v p : BitVec 64) (k : KernelHeap PageFrameAllocator)
      (hkeeps : KeepsMemory memMap v p)
      (hout : v.toNat < s.blocks.heap.heapStart.toNat ∨ s.blocks.heap.heapEnd.toNat ≤ v.toNat)
      (hrun : HeapM.mapMem globalAllocator ptm v p s.blocks.heap = some ((), k)) :
      MemoryUse memMap own ptm s (.map v p) ⟨⟨k, s.blocks.live⟩, s.frames⟩
  | own (s : MemoryState) (p f : BitVec 64) (i : ℕ) (v : BitVec 8)
      (k : KernelHeap PageFrameAllocator) (hf : f ∈ own) (hi : i < 4096)
      (hphys : s.machine.phys p = some (frameByte f i))
      (hrun : HeapM.store8 p v s.blocks.heap = some ((), k)) :
      MemoryUse memMap own ptm s (.own p v) ⟨⟨k, s.blocks.live⟩, s.frames⟩

variable {memMap : List EfiMemoryDescriptor} {ptm : PageTableManager} {root a f : BitVec 64}
  {s s' u : MemoryState} {op : MemoryOp} {ops : List MemoryOp} {own K : Set (BitVec 64)} {m : Mem}

/-- A use moves the machine by every relation by which the mappings and the requests move. -/
theorem MemoryUse.moves {R : KernelHeap PageFrameAllocator → KernelHeap PageFrameAllocator → Prop}
    [hR : HeapRel globalAllocator ptm R] (hrequest : Moves R (HeapM.requestPage globalAllocator))
    (huse : MemoryUse memMap own ptm s op s') : R s.blocks.heap s'.blocks.heap := by
  cases huse with
  | block op b h => exact h.1.moves
  | request f k hrun => exact hrequest _ _ _ hrun
  | put f i v k hf hi hrun =>
      have hmoves : Moves R (HeapM.store8 (frameByte f i) v) := HeapM.moves_store8
      exact hmoves _ _ _ hrun
  | get f i v k hf hi hrun =>
      have hmoves : Moves R (HeapM.load8 (frameByte f i)) := HeapM.moves_load8
      exact hmoves _ _ _ hrun
  | map v p k hkeeps hout hrun => exact hR.mapMem v p _ _ _ hrun
  | own p f i v k hf hi hphys hrun =>
      have hmoves : Moves R (HeapM.store8 p v) := HeapM.moves_store8
      exact hmoves _ _ _ hrun

/-- A run moves it as well. -/
theorem memoryUses_moves {R : KernelHeap PageFrameAllocator → KernelHeap PageFrameAllocator → Prop}
    [hR : HeapRel globalAllocator ptm R] (hrequest : Moves R (HeapM.requestPage globalAllocator))
    (hrun : Steps (MemoryUse memMap own ptm) s ops u) : R s.blocks.heap u.blocks.heap :=
  hrun.moves (M := fun s u => R s.blocks.heap u.blocks.heap) (fun s => hR.refl s.blocks.heap)
    (fun _ _ _ => hR.trans _ _ _) fun _ _ _ huse => huse.moves hrequest

theorem recorder_requestPage :
    Moves Recorder (HeapM.requestPage globalAllocator : HeapM PageFrameAllocator _) := by
  intro k w k' heq
  obtain ⟨-, -, rfl⟩ := HeapM.requestPage_eq_some heq
  rw [Recorder, Machine.takeFrame_requests]
  exact List.suffix_cons _ _

theorem keepsRecord_requestPage :
    Moves (KeepsRecord memMap) (HeapM.requestPage globalAllocator) := by
  intro k w k' heq hrec
  obtain ⟨-, -, rfl⟩ := HeapM.requestPage_eq_some heq
  exact hrec.takeFrame counted_globalAllocator

/-- More frames may be the kernel's own. -/
theorem MemoryUse.mono {own' : Set (BitVec 64)} (huse : MemoryUse memMap own ptm s op s')
    (hsub : own ⊆ own') : MemoryUse memMap own' ptm s op s' := by
  cases huse with
  | block op b h => exact MemoryUse.block s op b h
  | request f k hrun => exact MemoryUse.request s f k hrun
  | put f i v k hf hi hrun => exact MemoryUse.put s f i v k hf hi hrun
  | get f i v k hf hi hrun => exact MemoryUse.get s f i v k hf hi hrun
  | map v p k hkeeps hout hrun => exact MemoryUse.map s v p k hkeeps hout hrun
  | own p f i v k hf hi hphys hrun => exact MemoryUse.own s p f i v k (hsub hf) hi hphys hrun

/-- What later requests return does not change what earlier ones returned. -/
theorem MemoryUse.backwards (s : MemoryState) (op : MemoryOp) (s' : MemoryState)
    (huse : MemoryUse memMap own ptm s op s') (hOk : AllGranted memMap s'.blocks) :
    AllGranted memMap s.blocks := by
  have hgrow : Recorder s.blocks.heap s'.blocks.heap := huse.moves recorder_requestPage
  exact fun r hr => hOk r (hgrow.subset hr)

/-! ## The invariant -/

/-- **The frames that the kernel writes to on its own account**: each is one of those of `K`, or
beyond the reach of the allocator, and none is frame 0 or a part of the bitmap. -/
structure OwnFrames (memMap : List EfiMemoryDescriptor) (own K : Set (BitVec 64)) : Prop where
  frame : ∀ f ∈ own, IsFrame f
  ne : ∀ f ∈ own, f ≠ 0
  notBitmap : ∀ f ∈ own, ¬ BitmapFrame memMap (frameIndex f)
  apart : ∀ f ∈ own, f ∈ K ∨ reach memMap ≤ frameIndex f

/-- The frames beyond reach have the same contents, but for the kernel's own. -/
def SameFarBut (memMap : List EfiMemoryDescriptor) (own : Set (BitVec 64)) (m m' : Mem) : Prop :=
  ∀ f, IsFrame f → reach memMap ≤ frameIndex f → ¬ BitmapFrame memMap (frameIndex f) → f ∉ own →
    SameOn f 4096 m m'

theorem SameFar.but {m' : Mem} (h : SameFar memMap m m') (own : Set (BitVec 64)) :
    SameFarBut memMap own m m' :=
  fun f hf hfar hnot _ => h f hf hfar hnot

theorem SameFarBut.trans {m' m'' : Mem} (h : SameFarBut memMap own m m')
    (h' : SameFarBut memMap own m' m'') : SameFarBut memMap own m m'' :=
  fun f hf hfar hnot hown => (h f hf hfar hnot hown).trans (h' f hf hfar hnot hown)

/-- **The invariant of the machine and its objects.**  The blocks are as they should be, beside
the frames that were requested and those of `K`.  What is not the kernel's own has the contents it
has in `m`, in the frames of `K` and in those beyond reach. -/
structure MemoryInv (memMap : List EfiMemoryDescriptor) (root a : BitVec 64)
    (own K : Set (BitVec 64)) (m : Mem) (s : MemoryState) : Prop where
  blocks : ∃ n segs,
    BlockInv memMap root a ({f | f ∈ s.frames} ∪ K) s.machine.mem n segs s.blocks
  frames : ∀ f ∈ s.frames, f ≠ 0 ∧ f ∉ K
  ownFrames : OwnFrames memMap own K
  kept : ∀ f ∈ K, f ≠ 0 → f ∉ own → SameOn f 4096 m s.machine.mem
  far : SameFarBut memMap own m s.machine.mem

/-- The objects are the blocks and the frames, and hold what is seen. -/
structure HoldsObjects (s : MemoryState) (t : Objects) : Prop where
  blocks : Holds s.blocks t.blocks
  frames : t.frames = s.frames
  contents : ∀ f ∈ s.frames, ∀ i < 4096, s.machine.mem (frameByte f i) = t.contents f i

theorem frameByte_sub {i : ℕ} (hi : i < 4096) : (frameByte f i - f).toNat = i := by
  unfold frameByte
  bv_omega

theorem frameByte_inj {i j : ℕ} (hi : i < 4096) (hj : j < 4096) :
    frameByte f i = frameByte f j ↔ i = j := by
  constructor
  · intro heq
    have hsub := frameByte_sub (f := f) hi
    rw [heq, frameByte_sub hj] at hsub
    exact hsub.symm
  · rintro rfl
    rfl

theorem frameByte_congr {m m' : Mem} (h : SameOn f 4096 m m') {i : ℕ} (hi : i < 4096) :
    m' (frameByte f i) = m (frameByte f i) :=
  h _ (by rwa [frameByte_sub hi])

/-! ## One use -/

/-- A store goes where the pointer leads. -/
theorem store8_of_phys {k : KernelHeap PageFrameAllocator} {p x : Addr} (v : BitVec 8)
    (h : k.machine.phys p = some x) : HeapM.store8 p v k = some ((), { k with
      machine := { k.machine with mem := ByteMemory.store8 k.machine.mem x v } }) := by
  rw [HeapM.store8, Machine.store8, h]
  rfl

/-- **Where the bitmap is reached** a call of `request_page` is the one before paging. -/
theorem requestPage_of_identityInv {k : KernelHeap PageFrameAllocator} (hwf : WellFormedMap memMap)
    (hroot : IsFrame root) (hid : IdentityInv memMap root k.machine) :
    HeapM.requestPage globalAllocator k = some ((requestPage k.machine).1,
      { k with machine := (k.machine.takeFrame bootAllocator).2 }) := by
  rw [HeapM.requestPage, hid.requestFrame_eq hwf hroot]
  rfl

namespace MemoryInv

/-- Fewer frames are kept as well, with contents that go back further. -/
theorem mono {K' : Set (BitVec 64)} {m' : Mem} (hinv : MemoryInv memMap root a own K m s)
    (hsub : K' ⊆ K) (hown : OwnFrames memMap own K')
    (hkept : ∀ f ∈ K', f ≠ 0 → f ∉ own → SameOn f 4096 m' m)
    (hfar : SameFarBut memMap own m' m) : MemoryInv memMap root a own K' m' s := by
  obtain ⟨n, segs, hblocks⟩ := hinv.blocks
  exact ⟨⟨n, segs, hblocks.mono (Set.union_subset_union_right _ hsub)⟩,
    fun f hf => ⟨(hinv.frames f hf).1, fun hK => (hinv.frames f hf).2 (hsub hK)⟩, hown,
    fun f hf hne hnot => (hkept f hf hne hnot).trans (hinv.kept f (hsub hf) hne hnot),
    hfar.trans hinv.far⟩

/-- Fewer frames are the kernel's own, when the contents are taken from the memory as it is. -/
theorem rebase_own {own' : Set (BitVec 64)} (hinv : MemoryInv memMap root a own K m s)
    (hsub : own' ⊆ own) : MemoryInv memMap root a own' K s.machine.mem s where
  blocks := hinv.blocks
  frames := hinv.frames
  ownFrames := ⟨fun f hf => hinv.ownFrames.frame f (hsub hf),
    fun f hf => hinv.ownFrames.ne f (hsub hf), fun f hf => hinv.ownFrames.notBitmap f (hsub hf),
    fun f hf => hinv.ownFrames.apart f (hsub hf)⟩
  kept := fun _ _ _ _ => SameOn.refl _ _ _
  far := (SameFar.refl _ _).but own'

/-- **What the heap and the mappings leave.**  Whatever keeps the invariant of the blocks, with
the frames as they were, keeps that of the objects. -/
theorem of_blocks (hinv : MemoryInv memMap root a own K m s) {b : KernelState} {n : ℕ}
    {segs : List Segment}
    (hblocks : BlockInv memMap root a ({f | f ∈ s.frames} ∪ K) s.machine.mem n segs b) :
    MemoryInv memMap root a own K m ⟨b, s.frames⟩ ∧ ∀ f ∈ s.frames, ∀ i < 4096,
      b.heap.machine.mem (frameByte f i) = s.machine.mem (frameByte f i) := by
  have hsame : ∀ g ∈ {f | f ∈ s.frames} ∪ K, g ≠ 0 →
      SameOn g 4096 s.machine.mem b.heap.machine.mem :=
    fun g hg hne => (hblocks.mirrors.kept g hg hne).2
  refine ⟨⟨⟨n, segs, hblocks.rebase⟩, hinv.frames, hinv.ownFrames, fun g hg hne hnot => ?_,
    hinv.far.trans (hblocks.mirrors.far.but own)⟩, fun g hg i hi => ?_⟩
  · exact (hinv.kept g hg hne hnot).trans (hsame g (Or.inr hg) hne)
  · exact frameByte_congr (hsame g (Or.inl hg) (hinv.frames g hg).1) hi

section Uses

variable (hwf : WellFormedMap memMap) (hpages : 1 ≤ totalFrames memMap)
  (hsize : (totalMem memMap).toNat ≤ 2 ^ 48) (hroot : IsFrame root)
  (hinv : MemoryInv memMap root a own K m s)

include hinv

section Frames

include hpages

/-- A pointer into a frame that was requested denotes its own address. -/
theorem direct (hf : f ∈ s.frames) {i : ℕ} (hi : i < 4096) :
    s.machine.Direct (frameByte f i) := by
  obtain ⟨n, segs, hblocks⟩ := hinv.blocks
  exact hblocks.direct hpages (Or.inl hf) (hinv.frames f hf).1 (by rwa [frameByte_sub hi])

/-- **Loads from a frame that was requested** do not fault. -/
theorem load8 (hf : f ∈ s.frames) {i : ℕ} (hi : i < 4096) :
    s.machine.load8 (frameByte f i) = some (s.machine.mem (frameByte f i)) := by
  rw [Machine.load8, hinv.direct hpages hf hi, Option.map_some]

include hwf hroot

/-- **A store to a frame that was requested** changes the byte it stores to, and no other byte
of an object. -/
theorem put (hf : f ∈ s.frames) {i : ℕ} (hi : i < 4096) (v : BitVec 8) :
    Returns (HeapM.store8 (frameByte f i) v) s.blocks.heap fun _ k' =>
      MemoryInv memMap root a own K m ⟨⟨k', s.blocks.live⟩, s.frames⟩ ∧
        (∀ c ∈ s.blocks.live, ∀ j < c.size.toNat,
          k'.machine.view (c.addr j) = s.machine.view (c.addr j)) ∧
        ∀ g ∈ s.frames, ∀ j < 4096, k'.machine.mem (frameByte g j) =
          if g = f ∧ j = i then v else s.machine.mem (frameByte g j) := by
  obtain ⟨n, segs, hblocks⟩ := hinv.blocks
  obtain ⟨hne, hfK⟩ := hinv.frames f hf
  have hmem : ∀ x, ¬ (x - f).toNat < 4096 →
      ByteMemory.store8 s.machine.mem (frameByte f i) v x = s.machine.mem x := by
    intro x hx
    refine if_neg ?_
    rintro rfl
    exact hx (by rwa [frameByte_sub hi])
  have hsame : ∀ g ∈ {f | f ∈ s.frames} ∪ K, g ≠ 0 → g ≠ f → SameOn g 4096 s.machine.mem
      (ByteMemory.store8 s.machine.mem (frameByte f i) v) := by
    intro g hg hg0 hgf x hx
    have hframe := (hblocks.mirrors.kept f (Or.inl hf) hne).1.held.frame
    have hframe' := (hblocks.mirrors.kept g hg hg0).1.held.frame
    exact hmem x ((hframe.apart hframe' (Ne.symm hgf)).notMem hx)
  have hheld := (hblocks.mirrors.kept f (Or.inl hf) hne).1.held
  have hfar : SameFar memMap s.machine.mem
      (ByteMemory.store8 s.machine.mem (frameByte f i) v) :=
    SameFar.of_write hheld.frame hheld.inReach hmem
  obtain ⟨hblocks', hview⟩ := hblocks.writeKept hwf hroot (Or.inl hf) hne hmem
  refine ⟨(), { s.blocks.heap with machine := { s.machine with
    mem := ByteMemory.store8 s.machine.mem (frameByte f i) v } }, ?_,
      ⟨⟨n, segs, hblocks'⟩, hinv.frames, hinv.ownFrames, fun g hg hg0 hnot => ?_,
        hinv.far.trans (hfar.but own)⟩, hview, fun g hg j hj => ?_⟩
  · exact store8_of_phys v (hinv.direct hpages hf hi)
  · refine (hinv.kept g hg hg0 hnot).trans (hsame g (Or.inr hg) hg0 ?_)
    rintro rfl
    exact hfK hg
  · by_cases hgf : g = f
    · subst hgf
      simp only [true_and, ByteMemory.store8, frameByte_inj hj hi]
    · rw [if_neg fun h => hgf h.1]
      exact frameByte_congr (hsame g (Or.inl hg) (hinv.frames g hg).1 hgf) hj

end Frames

include hwf hroot

/-- **A frame that is requested** is none of the objects, and changes none. -/
theorem request {k : KernelHeap PageFrameAllocator}
    (hrun : HeapM.requestPage globalAllocator s.blocks.heap = some (f, k))
    (hOk : ∀ r ∈ k.machine.requests, Granted memMap r) :
    f ≠ 0 ∧ f ∉ s.frames ∧ MemoryInv memMap root a own K m ⟨⟨k, s.blocks.live⟩, f :: s.frames⟩ ∧
      (∀ c ∈ s.blocks.live, ∀ j < c.size.toNat,
        k.machine.view (c.addr j) = s.machine.view (c.addr j)) ∧
      ∀ g ∈ s.frames, ∀ i < 4096,
        k.machine.mem (frameByte g i) = s.machine.mem (frameByte g i) := by
  obtain ⟨n, segs, hblocks⟩ := hinv.blocks
  have hid := hblocks.mirrors.refines.shown.pages.identity
  rw [requestPage_of_identityInv hwf hroot hid] at hrun
  obtain ⟨rfl, rfl⟩ := Prod.mk.inj (Option.some.inj hrun)
  have hnext : Granted memMap (nextRequest bootAllocator s.machine) := by
    refine hOk _ ?_
    rw [Machine.takeFrame_requests]
    exact List.mem_cons_self
  obtain ⟨hblocks', hview, hkept⟩ := hblocks.request hwf hroot hnext
  have hnew : (requestPage s.machine).1 ∉ {f | f ∈ s.frames} ∪ K :=
    fun hmem => (hkept _ hmem hnext.1).1 rfl
  have hset : insert (requestPage s.machine).1 ({f | f ∈ s.frames} ∪ K) =
      {f | f ∈ (requestPage s.machine).1 :: s.frames} ∪ K := by
    ext g
    simp [or_assoc]
  refine ⟨hnext.1, fun hmem => hnew (Or.inl hmem),
    ⟨⟨n, segs, hset ▸ hblocks'⟩, fun g hg => ?_, hinv.ownFrames, fun g hg hg0 hnot => ?_,
      hinv.far.trans (SameFar.but ?_ own)⟩, hview, fun g hg i hi => ?_⟩
  · rcases List.mem_cons.mp hg with rfl | hg
    · exact ⟨hnext.1, fun hmem => hnew (Or.inr hmem)⟩
    · exact hinv.frames g hg
  · exact (hinv.kept g hg hg0 hnot).trans (hkept g (Or.inr hg) hg0).2
  · exact SameFar.requestPage hwf hid.tables.alloc hnext
  · exact frameByte_congr (hkept g (Or.inl hg) (hinv.frames g hg).1).2 hi

/-- **Writing to a frame of the kernel's own** changes no table and no mark. -/
theorem write_own (hf : f ∈ own) {m' : Mem}
    (hmem : ∀ x, ¬ (x - f).toNat < 4096 → m' x = s.machine.mem x) :
    (∀ t, Table s.machine.mem root t → SameOn t 4096 s.machine.mem m') ∧
      ∀ i < reach memMap, Machine.marked { s.machine with mem := m' } i = s.machine.marked i := by
  obtain ⟨n, segs, hblocks⟩ := hinv.blocks
  have hid := hblocks.mirrors.refines.shown.pages.identity
  have hnot : ¬ Table s.machine.mem root f := by
    intro htable
    rcases hinv.ownFrames.apart f hf with hK | hfar
    · exact (hblocks.mirrors.kept f (Or.inr hK) (hinv.ownFrames.ne f hf)).1.held.notTable htable
    · exact absurd (hid.tables.tables f htable).1 (by omega)
  exact (hid.tables.write hwf hroot (hinv.ownFrames.frame f hf) hnot
    (hinv.ownFrames.notBitmap f hf) hmem).2

/-- **A store of the kernel's own** changes no object. -/
theorem own_store {p : BitVec 64} {i : ℕ} {v : BitVec 8} {k : KernelHeap PageFrameAllocator}
    (hf : f ∈ own) (hi : i < 4096) (hphys : s.machine.phys p = some (frameByte f i))
    (hrun : HeapM.store8 p v s.blocks.heap = some ((), k)) :
    MemoryInv memMap root a own K m ⟨⟨k, s.blocks.live⟩, s.frames⟩ ∧
      (∀ c ∈ s.blocks.live, ∀ j < c.size.toNat,
        k.machine.view (c.addr j) = s.machine.view (c.addr j)) ∧
      ∀ g ∈ s.frames, ∀ j < 4096,
        k.machine.mem (frameByte g j) = s.machine.mem (frameByte g j) := by
  obtain ⟨n, segs, hblocks⟩ := hinv.blocks
  have hframe := hinv.ownFrames.frame f hf
  have hapart := hinv.ownFrames.apart f hf
  rw [store8_of_phys v hphys] at hrun
  obtain ⟨-, rfl⟩ := Prod.mk.inj (Option.some.inj hrun)
  have hmem : ∀ x, ¬ (x - f).toNat < 4096 →
      ByteMemory.store8 s.machine.mem (frameByte f i) v x = s.machine.mem x := by
    intro x hx
    refine if_neg ?_
    rintro rfl
    exact hx (by rwa [frameByte_sub hi])
  have hsame : ∀ g, IsFrame g → g ≠ f → SameOn g 4096 s.machine.mem
      (ByteMemory.store8 s.machine.mem (frameByte f i) v) :=
    fun g hg hne x hx => hmem x ((hframe.apart hg hne.symm).notMem hx)
  have hkept : ∀ g ∈ {f | f ∈ s.frames} ∪ K, g ≠ 0 → IsFrame g ∧ frameIndex g < reach memMap := by
    intro g hg hg0
    have hheld := (hblocks.mirrors.kept g hg hg0).1.held
    exact ⟨hheld.frame, hheld.inReach⟩
  obtain ⟨hblocks', hview⟩ := hblocks.writeOwn hwf hroot hframe (hinv.ownFrames.ne f hf)
    (hinv.ownFrames.notBitmap f hf) (hapart.imp_left Or.inr) hmem
  refine ⟨⟨⟨n, segs, hblocks'⟩, hinv.frames, hinv.ownFrames, fun g hg hg0 hnot => ?_,
    hinv.far.trans fun g hg hfar hbitmap hnot => hsame g hg ?_⟩, hview, fun g hg j hj => ?_⟩
  · refine (hinv.kept g hg hg0 hnot).trans (hsame g (hkept g (Or.inr hg) hg0).1 ?_)
    rintro rfl
    exact hnot hf
  · rintro rfl
    exact hnot hf
  · -- a frame that was requested is within reach, and none of those that are kept
    obtain ⟨hg0, hgK⟩ := hinv.frames g hg
    obtain ⟨hgframe, hreach⟩ := hkept g (Or.inl hg) hg0
    refine frameByte_congr (hsame g hgframe ?_) hj
    rintro rfl
    rcases hapart with hK | hfar
    · exact hgK hK
    · omega

end Uses

end MemoryInv

section Simulation

variable (hwf : WellFormedMap memMap) (hpages : 1 ≤ totalFrames memMap)
  (hsize : (totalMem memMap).toNat ≤ 2 ^ 48) (hroot : IsFrame root)

include hwf hpages hsize hroot

/-- **One use of the machine** is a use of the memory of objects. -/
theorem objects_step {t : Objects} (hinv : MemoryInv memMap root a own K m s)
    (hholds : HoldsObjects s t) (huse : MemoryUse memMap own ⟨root⟩ s op s')
    (hOk : AllGranted memMap s'.blocks) :
    ∃ t', Objects.Step t op t' ∧ MemoryInv memMap root a own K m s' ∧ HoldsObjects s' t' := by
  obtain ⟨store, frames, contents⟩ := t
  obtain ⟨hstore, hframes, hcontents⟩ := hholds
  obtain rfl : frames = s.frames := hframes
  cases huse with
  | block op b h =>
      obtain ⟨store', hstep, ⟨n, segs, hblocks⟩, hholds⟩ :=
        blockStore_step hwf hpages hsize hroot hinv.blocks hstore h.1 h.2 hOk
      obtain ⟨hinv', hsame⟩ := hinv.of_blocks hblocks
      exact ⟨_, Objects.Step.block _ op store' hstep, hinv', hholds, rfl,
        fun g hg i hi => (hsame g hg i hi).trans (hcontents g hg i hi)⟩
  | request f k hrun =>
      obtain ⟨hnull, hnew, hinv', hview, hsame⟩ := hinv.request hwf hroot hrun hOk
      refine ⟨_,
        Objects.Step.request _ f (fun i => k.machine.mem (frameByte f i)) hnull hnew,
        hinv', ⟨hstore.live, fun c hc j hj => (hview c hc j hj).trans (hstore.bytes c hc j hj)⟩,
        rfl, fun g hg i hi => ?_⟩
      dsimp only
      rcases List.mem_cons.mp hg with rfl | hmem
      · rw [Function.update_self]
      · have hne : g ≠ f := by
          rintro rfl
          exact hnew hmem
        rw [Function.update_of_ne hne]
        exact (hsame g hmem i hi).trans (hcontents g hmem i hi)
  | put f i v k hf hi hrun =>
      obtain ⟨hinv', hview, hput⟩ := (hinv.put hwf hpages hroot hf hi v).of_eq hrun
      refine ⟨_, Objects.Step.put _ f i v hf hi, hinv',
        ⟨hstore.live, fun c hc j hj => (hview c hc j hj).trans (hstore.bytes c hc j hj)⟩, rfl,
        fun g hg j hj => ?_⟩
      dsimp only
      rw [hput g hg j hj]
      by_cases hgf : g = f
      · subst hgf
        rw [Function.update_self]
        by_cases hji : j = i
        · rw [if_pos ⟨rfl, hji⟩, hji, Function.update_self]
        · rw [if_neg fun h => hji h.2, Function.update_of_ne hji]
          exact hcontents g hg j hj
      · rw [if_neg fun h => hgf h.1, Function.update_of_ne hgf]
        exact hcontents g hg j hj
  | get f i v k hf hi hrun =>
      rw [HeapM.load8, hinv.load8 hpages hf hi, Option.map_some] at hrun
      obtain ⟨rfl, rfl⟩ := Prod.mk.inj (Option.some.inj hrun)
      rw [hcontents f hf i hi]
      exact ⟨_, Objects.Step.get _ f i hf hi, hinv, hstore, rfl, hcontents⟩
  | map v p k hkeeps hout hrun =>
      obtain ⟨n, segs, hblocks⟩ := hinv.blocks
      obtain ⟨hblocks', hview⟩ := hblocks.mapMem hwf hroot hpages hsize hkeeps hout hrun hOk
      obtain ⟨hinv', hsame⟩ := hinv.of_blocks hblocks'
      exact ⟨_, Objects.Step.map _ v p, hinv',
        ⟨hstore.live, fun c hc j hj => (hview c hc j hj).trans (hstore.bytes c hc j hj)⟩, rfl,
        fun g hg i hi => (hsame g hg i hi).trans (hcontents g hg i hi)⟩
  | own p f i v k hf hi hphys hrun =>
      obtain ⟨hinv', hview, hsame⟩ := hinv.own_store hwf hroot hf hi hphys hrun
      exact ⟨_, Objects.Step.own _ p v, hinv',
        ⟨hstore.live, fun c hc j hj => (hview c hc j hj).trans (hstore.bytes c hc j hj)⟩, rfl,
        fun g hg j hj => (hsame g hg j hj).trans (hcontents g hg j hj)⟩

/-- **Every run of the machine** in which no request has returned `NULL` is a run of the memory of
objects. -/
theorem memoryUses_run {t : Objects} (hinv : MemoryInv memMap root a own K m s)
    (hholds : HoldsObjects s t) (hrec : Recorded memMap s.machine)
    (hrun : Steps (MemoryUse memMap own ⟨root⟩) s ops u)
    (hnull : ∀ r ∈ u.machine.requests, r.frame ≠ 0) :
    ∃ t', Steps Objects.Step t ops t' ∧ MemoryInv memMap root a own K m u ∧ HoldsObjects u t' := by
  have hkeeps : KeepsRecord memMap s.blocks.heap u.blocks.heap :=
    memoryUses_moves keepsRecord_requestPage hrun
  have hOk : AllGranted memMap u.blocks := (hkeeps hrec).granted hsize hnull
  exact hrun.simulate
    (R := fun s t => MemoryInv memMap root a own K m s ∧ HoldsObjects s t) MemoryUse.backwards
    (fun s t op s' hR huse hOk => objects_step hwf hpages hsize hroot hR.1 hR.2 huse hOk) hOk
    ⟨hinv, hholds⟩

end Simulation

end EtaOs
