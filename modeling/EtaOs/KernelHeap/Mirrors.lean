import EtaOs.KernelHeap.Reserved

/-!
# The methods of a header, behind the page tables

A header need not lie in one page: headers are 16 bytes apart at least, and 32 bytes long.  Each
of its fields lies in one page, so every access to a field is an access to the memory that the
pages show.  The one access outside the heap is the store of `split` through the null `next` of
the last segment, which lands in frame 0.

The agreement of the two states is a relation and not a function, as the machine has more memory
than the heap shows: the frames of others, the tables and the bitmap.  The relation says that they
stay as they are, which is the frame condition of every store that follows.

* `HeaderIn`: an aligned header in the heap.
* `Mirrors`: the machine and a heap on virtual memory agree, and the reserved frames are kept.
* `Mirrors.store64`, `Mirrors.storeNull`: the stores.
* `Mirrors.split`, `Mirrors.combineForward`, `Mirrors.combineBackward`, `Mirrors.linkLast`: the
  methods.
-/

namespace EtaOs

open ByteMemory Fallible RadixTree

variable {memMap : List EfiMemoryDescriptor} {root a x : BitVec 64} {n : ℕ}
  {B : Set (BitVec 64)} {m : Mem} {k : KernelHeap PageFrameAllocator} {h : Heap} {this : Addr}

/-! ## Accesses in one page -/

/-- An aligned header between the start and the end of the heap. -/
structure HeaderIn (a : BitVec 64) (n : ℕ) (x : Addr) : Prop where
  aligned : x.toNat % 16 = 0
  start : a.toNat ≤ x.toNat
  stop : x.toNat + 32 ≤ a.toNat + 4096 * n

section Pages

variable (hrange : HeapRange memMap a n)

include hrange

/-- An aligned word of the heap lies in one page, and so does a byte. -/
theorem HeapRange.onPage {c : ℕ} (hc : c = 8 ∧ x.toNat % 8 = 0 ∨ c = 1) (hstart : a.toNat ≤ x.toNat)
    (hstop : x.toNat + c ≤ a.toNat + 4096 * n) : OnPage a n x c := by
  have haligned := hrange.aligned
  have hbelow := hrange.below
  have hj : (x.toNat - a.toNat) / 4096 < n := by omega
  have hpage := hrange.toNat_heapPage hj
  refine ⟨_, hj, x - heapPage a ((x.toNat - a.toNat) / 4096), by bv_omega, ?_⟩
  have hoff : (x - heapPage a ((x.toNat - a.toNat) / 4096)).toNat =
      (x.toNat - a.toNat) % 4096 := by bv_omega
  omega

/-- A field of a header lies in one page. -/
theorem HeaderIn.field (hx : HeaderIn a n x) {d : BitVec 64} (hd : d.toNat % 8 = 0)
    (hd' : d.toNat + 8 ≤ 32) : OnPage a n (x + d) 8 := by
  obtain ⟨haligned, hstart, hstop⟩ := hx
  have hbelow := hrange.below
  have hval : (x + d).toNat = x.toNat + d.toNat := by bv_omega
  exact hrange.onPage (Or.inl ⟨rfl, by omega⟩) (by omega) (by omega)

theorem HeaderIn.word (hx : HeaderIn a n x) : OnPage a n x 8 := by
  have hfield := hx.field hrange (d := 0#64) (by decide) (by decide)
  rwa [BitVec.add_zero] at hfield

theorem HeaderIn.flag (hx : HeaderIn a n x) : OnPage a n (x + 24) 1 :=
  (hx.field hrange (d := 24) (by decide) (by decide)).shorten (by decide)

/-- A pointer into a page denotes a byte of the frame behind it. -/
theorem HeapPages.exists_phys {s : Kernel} {c : ℕ} (hp : HeapPages memMap root a n s)
    (hx : OnPage a n x c) (hc : 0 < c) : ∃ j < n, ∃ f i, Backs root a s j f ∧
      s.phys x = some (f + i) ∧ i.toNat + c ≤ 4096 := by
  obtain ⟨j, hj, i, rfl, hi⟩ := hx
  obtain ⟨f, hf⟩ := hp.present j hj
  exact ⟨j, hj, f, i, hf, hp.phys hrange hj hf (by omega), hi⟩

end Pages

/-! ## The machine and the heap it shows -/

/-- The pages of the heap on the machine show the memory of a heap on virtual memory, frame 0
is reserved, and the frames of `B` are reserved and have the contents they have in `m`, as do
the frames beyond reach. -/
structure Mirrors (memMap : List EfiMemoryDescriptor) (root a : BitVec 64) (n : ℕ)
    (B : Set (BitVec 64)) (m : Mem) (k : KernelHeap PageFrameAllocator) (h : Heap) : Prop where
  refines : Refines memMap root a n k h
  null : Reserved memMap root a n 0 k.machine
  kept : ∀ f ∈ B, f ≠ 0 → Reserved memMap root a n f k.machine ∧ SameOn f 4096 m k.machine.mem
  far : SameFar memMap m k.machine.mem

section Accesses

variable (hrange : HeapRange memMap a n) (hwf : WellFormedMap memMap) (hroot : IsFrame root)

include hrange

theorem Mirrors.load64 (hk : Mirrors memMap root a n B m k h) (hx : OnPage a n x 8) :
    Returns (HeapM.load64 x) k fun w k' => w = ByteMemory.load64 h.mem x ∧ k' = k :=
  returns_load64 hrange hk.refines hx

theorem Mirrors.free (hk : Mirrors memMap root a n B m k h) (hx : HeaderIn a n x) :
    Returns (HeapM.free x) k fun w k' => w = HeapSegHeader.free h.mem x ∧ k' = k := by
  refine ⟨HeapSegHeader.free h.mem x, k, ?_, rfl, rfl⟩
  rw [HeapM.free, bind_apply, HeapM.load8, hk.refines.shown.load8 hrange (hx.flag hrange)]
  rfl

include hwf hroot

omit hrange in
/-- Writing to a frame behind a page keeps the reserved frames. -/
theorem Mirrors.of_write {m' v' : Mem} {j : ℕ} {f : BitVec 64}
    (hk : Mirrors memMap root a n B m k h) (hj : j < n) (hf : Backs root a k.machine j f)
    (hmem : ∀ x, ¬ (x - f).toNat < 4096 → m' x = k.machine.mem x)
    (hshown : Shown memMap root a n v' { k.machine with mem := m' }) :
    Mirrors memMap root a n B m { k with machine := { k.machine with mem := m' } }
      { h with mem := v' } := by
  have hpages := hk.refines.shown.pages
  have hreserved : ∀ {g}, Reserved memMap root a n g k.machine →
      Reserved memMap root a n g { k.machine with mem := m' } ∧ SameOn g 4096 k.machine.mem m' := by
    intro g hg
    refine hg.write hwf hroot hpages.identity.tables (hpages.held j hj f hf) ?_ hmem
    rintro rfl
    exact hg.apart j hj hf
  have hheld := hpages.held j hj f hf
  refine ⟨⟨hshown, hk.refines.heapStart, hk.refines.heapEnd, hk.refines.lastHeader⟩,
    (hreserved hk.null).1, fun g hg hne => ?_,
    hk.far.trans (SameFar.of_write hheld.frame hheld.inReach hmem)⟩
  obtain ⟨hres, hsame⟩ := hk.kept g hg hne
  exact ⟨(hreserved hres).1, hsame.trans (hreserved hres).2⟩

/-- **A store of a word of the heap.** -/
theorem Mirrors.store64 (hk : Mirrors memMap root a n B m k h) (hx : OnPage a n x 8)
    (w : BitVec 64) : Returns (HeapM.store64 x w) k fun _ k' =>
      Mirrors memMap root a n B m k' { h with mem := ByteMemory.store64 h.mem x w } := by
  obtain ⟨j, hj, f, i, hf, hphys, hi⟩ := hk.refines.shown.pages.exists_phys hrange hx (by decide)
  obtain ⟨s, hs, hshown⟩ := hk.refines.shown.store64 hrange hwf hroot hx w
  have heq : { k.machine with mem := ByteMemory.store64 k.machine.mem (f + i) w } = s := by
    rw [Machine.store64, hphys, Option.map_some] at hs
    exact Option.some.inj hs
  rw [← heq] at hshown
  refine ⟨(), _, ?_, hk.of_write hwf hroot hj hf
    (fun y hy => store64_outside hi hy w) hshown⟩
  rw [HeapM.store64, hs, heq]
  rfl

/-- **A store of a byte of the heap.** -/
theorem Mirrors.store8 (hk : Mirrors memMap root a n B m k h) (hx : OnPage a n x 1)
    (w : BitVec 8) : Returns (HeapM.store8 x w) k fun _ k' =>
      Mirrors memMap root a n B m k' { h with mem := ByteMemory.store8 h.mem x w } := by
  obtain ⟨j, hj, f, i, hf, hphys, hi⟩ := hk.refines.shown.pages.exists_phys hrange hx (by decide)
  obtain ⟨s, hs, hshown⟩ := hk.refines.shown.store8 hrange hwf hroot hx w
  have heq : { k.machine with mem := ByteMemory.store8 k.machine.mem (f + i) w } = s := by
    rw [Machine.store8, hphys, Option.map_some] at hs
    exact Option.some.inj hs
  rw [← heq] at hshown
  refine ⟨(), _, ?_, hk.of_write hwf hroot hj hf
    (fun y hy => store8_outside hi hy w) hshown⟩
  rw [HeapM.store8, hs, heq]
  rfl

theorem Mirrors.setFree (hk : Mirrors memMap root a n B m k h) (hx : HeaderIn a n x)
    (flag : Bool) : Returns (HeapM.setFree x flag) k fun _ k' =>
      Mirrors memMap root a n B m k' { h with mem := HeapSegHeader.setFree h.mem x flag } :=
  hk.store8 hrange hwf hroot (hx.flag hrange) _

/-- **The store through a null `next`** lands in frame 0, and changes nothing else. -/
theorem Mirrors.storeNull (hpages : 1 ≤ totalFrames memMap)
    (hk : Mirrors memMap root a n B m k h) (w : BitVec 64) :
    Returns (HeapM.store64 (0 + 16) w) k fun _ k' =>
      Mirrors memMap root a n B m k' { h with mem := ByteMemory.store64 h.mem (0 + 16) w } := by
  have hid := hk.refines.shown.pages.identity
  have hframe := hk.null.held.frame
  have hwalk : walk k.machine.mem root 0 = some 0 := hid.identity 0 hpages
  have hphys : k.machine.phys (0 + 16) = some (0 + 16) :=
    direct_of_walk hid.cr3 hframe hwalk (by decide)
  have hmem : ∀ x, ¬ (x - 0).toNat < 4096 →
      ByteMemory.store64 k.machine.mem (0 + 16) w x = k.machine.mem x :=
    fun x hx => store64_outside (by decide) hx w
  obtain ⟨hshown, hnull⟩ := hk.refines.shown.writeReserved hwf hroot hk.null hmem
  refine ⟨(), { k with machine := { k.machine with
    mem := ByteMemory.store64 k.machine.mem (0 + 16) w } }, ?_, ⟨⟨⟨hshown.pages, ?_⟩,
      hk.refines.heapStart, hk.refines.heapEnd, hk.refines.lastHeader⟩, hnull, ?_,
        hk.far.trans (SameFar.of_write hframe hk.null.held.inReach hmem)⟩⟩
  · rw [HeapM.store64, Machine.store64, hphys]
    rfl
  · -- the bytes from 16 on lie below the heap
    intro j hj f hf i hi
    have habove := hrange.above
    have hbelow := hrange.below
    have hpage := hrange.toNat_heapPage hj
    refine (hshown.shows j hj f hf i hi).trans (if_neg ?_).symm
    bv_omega
  · intro g hg hne
    obtain ⟨hres, hsame⟩ := hk.kept g hg hne
    obtain ⟨hres', hsame'⟩ := hres.write hwf hroot hid.tables hk.null.held (Ne.symm hne) hmem
    exact ⟨hres', hsame.trans hsame'⟩

omit hrange hwf hroot in
/-- The global moves in both. -/
theorem Mirrors.setLastHeader (hk : Mirrors memMap root a n B m k h) {f : Addr → Addr} :
    Returns (modify fun k => { k with lastHeader := f k.lastHeader } : HeapM PageFrameAllocator _) k
      fun _ k' => Mirrors memMap root a n B m k' { h with lastHeader := f h.lastHeader } := by
  refine returns_modify ⟨⟨hk.refines.shown, hk.refines.heapStart, hk.refines.heapEnd, ?_⟩,
    hk.null, hk.kept, hk.far⟩
  rw [hk.refines.lastHeader]

end Accesses

/-! ## The methods -/

section Methods

variable (hrange : HeapRange memMap a n) (hwf : WellFormedMap memMap) (hroot : IsFrame root)

include hrange

theorem Mirrors.next (hk : Mirrors memMap root a n B m k h) (hx : HeaderIn a n x) :
    Returns (HeapM.next x) k fun w k' => w = HeapSegHeader.next h.mem x ∧ k' = k :=
  hk.load64 hrange (hx.field hrange (by decide) (by decide))

theorem Mirrors.last (hk : Mirrors memMap root a n B m k h) (hx : HeaderIn a n x) :
    Returns (HeapM.last x) k fun w k' => w = HeapSegHeader.last h.mem x ∧ k' = k :=
  hk.load64 hrange (hx.field hrange (by decide) (by decide))

theorem Mirrors.length (hk : Mirrors memMap root a n B m k h) (hx : HeaderIn a n x) :
    Returns (HeapM.length x) k fun w k' => w = HeapSegHeader.length h.mem x ∧ k' = k :=
  hk.load64 hrange (hx.word hrange)

include hwf hroot

theorem Mirrors.setNext (hk : Mirrors memMap root a n B m k h) (hx : HeaderIn a n x) (w : Addr) :
    Returns (HeapM.setNext x w) k fun _ k' =>
      Mirrors memMap root a n B m k' { h with mem := HeapSegHeader.setNext h.mem x w } :=
  hk.store64 hrange hwf hroot (hx.field hrange (by decide) (by decide)) w

theorem Mirrors.setLast (hk : Mirrors memMap root a n B m k h) (hx : HeaderIn a n x) (w : Addr) :
    Returns (HeapM.setLast x w) k fun _ k' =>
      Mirrors memMap root a n B m k' { h with mem := HeapSegHeader.setLast h.mem x w } :=
  hk.store64 hrange hwf hroot (hx.field hrange (by decide) (by decide)) w

theorem Mirrors.setLength (hk : Mirrors memMap root a n B m k h) (hx : HeaderIn a n x)
    (w : BitVec 64) : Returns (HeapM.setLength x w) k fun _ k' =>
      Mirrors memMap root a n B m k' { h with mem := HeapSegHeader.setLength h.mem x w } :=
  hk.store64 hrange hwf hroot (hx.word hrange) w

/-- The `last` field behind a segment, which is in frame 0 behind the last one. -/
theorem Mirrors.setLastBehind (hpages : 1 ≤ totalFrames memMap)
    (hk : Mirrors memMap root a n B m k h) (hx : x = 0 ∨ HeaderIn a n x) (w : Addr) :
    Returns (HeapM.setLast x w) k fun _ k' =>
      Mirrors memMap root a n B m k' { h with mem := HeapSegHeader.setLast h.mem x w } := by
  rcases hx with rfl | hin
  · exact hk.storeNull hrange hwf hroot hpages w
  · exact hk.setLast hrange hwf hroot hin w

/-- **`split`**, at the last segment too. -/
theorem Mirrors.split (hpages : 1 ≤ totalFrames memMap) {r : BitVec 64}
    (hk : Mirrors memMap root a n B m k h) (hthis : HeaderIn a n this)
    (hnext : HeapSegHeader.next h.mem this = 0 ∨ HeaderIn a n (HeapSegHeader.next h.mem this))
    (hnew : ¬ r < 0x10 → ¬ (HeapSegHeader.length h.mem this - r - 32).slt 0x10 →
      HeaderIn a n (this + r + 32)) :
    Returns (HeapM.split this r) k fun w k' => w = (HeapSegHeader.split this r h).1 ∧
      Mirrors memMap root a n B m k' (HeapSegHeader.split this r h).2 := by
  unfold HeapSegHeader.split
  by_cases hr : r < 0x10
  · rw [if_pos hr]
    exact Returns.of_ite_pos hr (returns_pure ⟨rfl, hk⟩)
  rw [if_neg hr]
  refine Returns.of_ite_neg hr ((hk.length hrange hthis).bind ?_)
  rintro _ _ ⟨rfl, rfl⟩
  by_cases hpos : (HeapSegHeader.length h.mem this - r - 32).slt 0x10
  · dsimp only
    rw [if_pos hpos, if_pos hpos]
    exact returns_pure ⟨rfl, hk⟩
  dsimp only
  rw [if_neg hpos, if_neg hpos]
  have hb := hnew hr hpos
  refine (hk.next hrange hthis).bind ?_
  rintro _ _ ⟨rfl, rfl⟩
  refine (hk.setLastBehind hrange hwf hroot hpages hnext _).bind ?_
  rintro _ k₁ hk₁
  refine (hk₁.next hrange hthis).bind ?_
  rintro _ _ ⟨rfl, rfl⟩
  refine (hk₁.setNext hrange hwf hroot hb _).bind ?_
  rintro _ k₂ hk₂
  refine (hk₂.setNext hrange hwf hroot hthis _).bind ?_
  rintro _ k₃ hk₃
  refine (hk₃.setLast hrange hwf hroot hb _).bind ?_
  rintro _ k₄ hk₄
  refine (hk₄.setLength hrange hwf hroot hb _).bind ?_
  rintro _ k₅ hk₅
  refine (hk₅.free hrange hthis).bind ?_
  rintro _ _ ⟨rfl, rfl⟩
  refine (hk₅.setFree hrange hwf hroot hb _).bind ?_
  rintro _ k₆ hk₆
  refine (hk₆.setLength hrange hwf hroot hthis _).bind ?_
  rintro _ k₇ hk₇
  refine (hk₇.setLastHeader (f := fun l => if l = this then this + r + 32 else l)).bind ?_
  rintro _ k₈ hk₈
  exact returns_pure ⟨rfl, hk₈⟩

/-- **`combine_forward`**, when the headers that it reads lie in the heap. -/
theorem Mirrors.combineForward (hk : Mirrors memMap root a n B m k h) (hthis : HeaderIn a n this)
    (hnext : HeapSegHeader.next h.mem this ≠ 0 → HeaderIn a n (HeapSegHeader.next h.mem this))
    (hnext' : HeapSegHeader.next h.mem this ≠ 0 →
      HeapSegHeader.next h.mem (HeapSegHeader.next h.mem this) ≠ 0 →
        HeaderIn a n (HeapSegHeader.next h.mem (HeapSegHeader.next h.mem this))) :
    Returns (HeapM.combineForward this) k fun _ k' =>
      Mirrors memMap root a n B m k' (HeapSegHeader.combineForward this h) := by
  unfold HeapSegHeader.combineForward
  refine (hk.next hrange hthis).bind ?_
  rintro _ _ ⟨rfl, rfl⟩
  by_cases h0 : HeapSegHeader.next h.mem this = 0
  · rw [if_pos h0, if_pos h0]
    exact returns_pure hk
  rw [if_neg h0, if_neg h0]
  have hin := hnext h0
  refine (hk.next hrange hthis).bind ?_
  rintro _ _ ⟨rfl, rfl⟩
  refine (hk.free hrange hin).bind ?_
  rintro _ _ ⟨rfl, rfl⟩
  by_cases hfree : HeapSegHeader.free h.mem (HeapSegHeader.next h.mem this) = false
  · rw [if_pos hfree, if_pos hfree]
    exact returns_pure hk
  rw [if_neg hfree, if_neg hfree]
  refine (hk.next hrange hthis).bind ?_
  rintro _ _ ⟨rfl, rfl⟩
  refine (hk.setLastHeader
    (f := fun l => if HeapSegHeader.next h.mem this = l then this else l)).bind ?_
  rintro _ k₁ hk₁
  refine (hk₁.next hrange hthis).bind ?_
  rintro _ _ ⟨rfl, rfl⟩
  refine (hk₁.next hrange hin).bind ?_
  rintro _ _ ⟨rfl, rfl⟩
  -- the header behind the next one, when there is one, is linked back to this one
  let l := if HeapSegHeader.next h.mem this = h.lastHeader then this else h.lastHeader
  let m' := if HeapSegHeader.next h.mem (HeapSegHeader.next h.mem this) ≠ 0 then
      HeapSegHeader.setLast h.mem (HeapSegHeader.next h.mem (HeapSegHeader.next h.mem this)) this
    else h.mem
  have hkeep : HeapSegHeader.next m' this = HeapSegHeader.next h.mem this := by
    by_cases hne : HeapSegHeader.next h.mem (HeapSegHeader.next h.mem this) ≠ 0
    · rw [show m' = _ from if_pos hne]
      obtain ⟨haligned, -, -⟩ := hthis
      obtain ⟨haligned', -, -⟩ := hnext' h0 hne
      exact load64_store64_of_apart _ ⟨by bv_omega, by bv_omega⟩
    · rw [show m' = _ from if_neg hne]
  refine Returns.bind (Q := fun _ k' =>
    Mirrors memMap root a n B m k' { h with mem := m', lastHeader := l }) ?_ ?_
  · by_cases hne : HeapSegHeader.next h.mem (HeapSegHeader.next h.mem this) ≠ 0
    · rw [show m' = _ from if_pos hne, if_pos hne]
      refine (hk₁.next hrange hthis).bind ?_
      rintro _ _ ⟨rfl, rfl⟩
      refine (hk₁.next hrange hin).bind ?_
      rintro _ _ ⟨rfl, rfl⟩
      exact hk₁.setLast hrange hwf hroot (hnext' h0 hne) _
    · rw [show m' = _ from if_neg hne, if_neg hne]
      exact returns_pure hk₁
  rintro _ k₂ hk₂
  refine (hk₂.length hrange hthis).bind ?_
  rintro _ _ ⟨rfl, rfl⟩
  refine (hk₂.next hrange hthis).bind ?_
  rintro _ _ ⟨rfl, rfl⟩
  refine (hk₂.length hrange (hkeep.symm ▸ hin)).bind ?_
  rintro _ _ ⟨rfl, rfl⟩
  exact hk₂.setLength hrange hwf hroot hthis _

/-- **`combine_backward`**, when the headers that it reads lie in the heap. -/
theorem Mirrors.combineBackward (hk : Mirrors memMap root a n B m k h) (hthis : HeaderIn a n this)
    (hlast : HeapSegHeader.last h.mem this ≠ 0 → HeaderIn a n (HeapSegHeader.last h.mem this))
    (hnext : HeapSegHeader.last h.mem this ≠ 0 →
      HeapSegHeader.next h.mem (HeapSegHeader.last h.mem this) = this)
    (hnext' : HeapSegHeader.next h.mem this ≠ 0 → HeaderIn a n (HeapSegHeader.next h.mem this)) :
    Returns (HeapM.combineBackward this) k fun _ k' =>
      Mirrors memMap root a n B m k' (HeapSegHeader.combineBackward this h) := by
  unfold HeapSegHeader.combineBackward
  refine (hk.last hrange hthis).bind ?_
  rintro _ _ ⟨rfl, rfl⟩
  by_cases h0 : HeapSegHeader.last h.mem this = 0
  · refine Returns.of_ite_pos h0 ?_
    rw [if_neg fun hc => hc.1 h0]
    exact returns_pure hk
  refine Returns.of_ite_neg h0 ((hk.last hrange hthis).bind ?_)
  rintro _ _ ⟨rfl, rfl⟩
  refine (hk.free hrange (hlast h0)).bind ?_
  rintro _ _ ⟨rfl, rfl⟩
  by_cases hfree : HeapSegHeader.free h.mem (HeapSegHeader.last h.mem this) = true
  · refine Returns.of_ite_pos hfree ((hk.last hrange hthis).bind ?_)
    rintro _ _ ⟨rfl, rfl⟩
    rw [if_pos ⟨h0, hfree⟩]
    refine hk.combineForward hrange hwf hroot (hlast h0) ?_ ?_
    · rw [hnext h0]
      exact fun _ => hthis
    · rw [hnext h0]
      exact fun _ => hnext'
  · refine Returns.of_ite_neg hfree ?_
    rw [if_neg fun hc => hfree hc.2]
    exact returns_pure hk

/-- **A segment behind the last one**, merged with it when it is free. -/
theorem Mirrors.linkLast {b : Addr} (len : BitVec 64) (hk : Mirrors memMap root a n B m k h)
    (hb : HeaderIn a n b) (hz : HeaderIn a n h.lastHeader) (hapart : Apart h.lastHeader 32 b 32) :
    Returns (HeapM.linkLast b len) k fun _ k' =>
      Mirrors memMap root a n B m k' (HeapSegHeader.combineBackward b (linkedLast b len h)) := by
  have hlastOf : ∀ {k' h'}, Mirrors memMap root a n B m k' h' → h'.lastHeader = h.lastHeader →
      k'.lastHeader = h.lastHeader := fun hk' heq => hk'.refines.lastHeader.trans heq
  refine (hk.setFree hrange hwf hroot hb true).bind ?_
  rintro _ k₁ hk₁
  refine Returns.get_bind ?_
  rw [hlastOf hk₁ rfl]
  refine (hk₁.setLast hrange hwf hroot hb _).bind ?_
  rintro _ k₂ hk₂
  refine Returns.get_bind ?_
  rw [hlastOf hk₂ rfl]
  refine (hk₂.setNext hrange hwf hroot hz _).bind ?_
  rintro _ k₃ hk₃
  refine (hk₃.setLastHeader (f := fun _ => b)).bind ?_
  rintro _ k₄ hk₄
  refine (hk₄.setNext hrange hwf hroot hb _).bind ?_
  rintro _ k₅ hk₅
  refine (hk₅.setLength hrange hwf hroot hb _).bind ?_
  rintro _ k₆ hk₆
  obtain ⟨hzhead, hbhead⟩ := header_linkedLast len hapart
  have hlast : HeapSegHeader.last (EtaOs.linkedLast b len h).mem b = h.lastHeader := by
    rw [last_eq, hbhead]
  refine hk₆.combineBackward hrange hwf hroot hb ?_ ?_ ?_
  · rw [hlast]
    exact fun _ => hz
  · rw [hlast, next_eq, hzhead]
    exact fun _ => rfl
  · rw [next_eq, hbhead]
    exact fun hne => absurd rfl hne

end Methods

end EtaOs
