import EtaOs.Allocator.Runs

/-!
# The frames that initialisation leaves free

The intent of `read_efi_memory_map` is that the free frames are the conventional ones,
less the low megabyte and the frames of the bitmap.  What the loops reach is something
else at three places: the first `reserve_pages` stops at the summed size of the map and
at `2 ^ 19` frames, so the frames above are never marked; a loop over more than `2 ^ 19`
pages leaves its descriptor; and a descriptor behind a gap may lie past the bitmap.

Both results are equivalences: the set left free is the intended one exactly for the maps named by
the condition, and the same for the frames that a run of requests ever returns.  The conditions are
on the descriptors alone, so that they can be read off a memory map.

* `ExactFreeSet`, `exactFreeSet_iff`: the intended free set, and the condition on the
  memory map under which it is what initialisation leaves.
* `OnlyUsable`, `requested_usable_iff`: every frame that is ever handed out is
  conventional memory above the low megabyte, and the condition `NoStrayFrames` on the
  memory map under which this is so.
-/

namespace EtaOs

open ByteMemory IntLoop Relation

/-- The free frames are the conventional ones from `0x100` on that are not locked for
the bitmap, and the bitmap covers all conventional memory. -/
def ExactFreeSet (memMap : List EfiMemoryDescriptor) (s : Kernel) : Prop :=
  (∀ k < 8 * s.alloc.pageBitmap.size.toNat, s.marked k = false ↔
    Conventional memMap k ∧ 0x100 ≤ k ∧
      ¬ LoopFrames s.alloc.pageBitmap.buffer (s.alloc.pageBitmap.size / 4096 + 1) k) ∧
  ∀ k, Conventional memMap k → k < 8 * s.alloc.pageBitmap.size.toNat

/-- The condition on the input: the passes of the initialisation reach the frames they
are meant to. -/
structure PassesExact (m : Mem) (memMap : List EfiMemoryDescriptor) : Prop where
  /-- No conventional frame lies past the bitmap. -/
  covered : ∀ k, Conventional memMap k → k < 8 * (initialBitmap memMap).size.toNat
  /-- The frames that are never marked are conventional. -/
  swept : ∀ k < 8 * (initialBitmap memMap).size.toNat, 0x100 ≤ k → ¬ BitmapFrame memMap k →
    ¬ LeftOver m memMap k → ¬ Swept memMap k → Conventional memMap k
  /-- The loops of `unreserve_pages` stay in conventional memory. -/
  released : ∀ k < 8 * (initialBitmap memMap).size.toNat, 0x100 ≤ k → ¬ BitmapFrame memMap k →
    Released memMap k → Conventional memMap k
  /-- They reach every conventional frame that is marked. -/
  reached : ∀ k < 8 * (initialBitmap memMap).size.toNat, 0x100 ≤ k → ¬ BitmapFrame memMap k →
    Conventional memMap k → LeftOver m memMap k ∨ Swept memMap k → Released memMap k

/-- **When the initial free set is exact.** -/
theorem exactFreeSet_iff (m : Mem) (memMap : List EfiMemoryDescriptor) :
    ExactFreeSet memMap (readEfiMemoryMap (bootKernel m) memMap) ↔ PassesExact m memMap := by
  rw [ExactFreeSet, readEfiMemoryMap_pageBitmap]
  show (∀ k < _, _ ↔ Conventional memMap k ∧ 0x100 ≤ k ∧ ¬ BitmapFrame memMap k) ∧ _ ↔ _
  constructor
  · rintro ⟨hfree, hcovered⟩
    have hfree' : ∀ k < 8 * (initialBitmap memMap).size.toNat,
        ¬ InitMarked m memMap k ↔ Conventional memMap k ∧ 0x100 ≤ k ∧ ¬ BitmapFrame memMap k :=
      fun k hk => (marked_eq_false_iff hk).symm.trans (hfree k hk)
    refine ⟨hcovered, ?_, ?_, ?_⟩
    · intro k hk h100 hb hleft hswept
      refine ((hfree' k hk).mp ?_).1
      rintro (⟨h, -⟩ | h | h)
      · exact h.elim hleft hswept
      · omega
      · exact hb h
    · intro k hk h100 hb hrel
      refine ((hfree' k hk).mp ?_).1
      rintro (⟨-, h⟩ | h | h)
      · exact h hrel
      · omega
      · exact hb h
    · intro k hk h100 hb hconv hmark
      by_contra hrel
      exact (hfree' k hk).mpr ⟨hconv, h100, hb⟩ (Or.inl ⟨hmark, hrel⟩)
  · intro h
    refine ⟨?_, h.covered⟩
    intro k hk
    rw [marked_eq_false_iff hk]
    constructor
    · intro hfree
      have h100 : 0x100 ≤ k := Nat.le_of_not_lt fun hlt => hfree (Or.inr (Or.inl hlt))
      have hb : ¬ BitmapFrame memMap k := fun hb => hfree (Or.inr (Or.inr hb))
      refine ⟨?_, h100, hb⟩
      by_cases hrel : Released memMap k
      · exact h.released k hk h100 hb hrel
      · exact h.swept k hk h100 hb (fun hl => hfree (Or.inl ⟨Or.inl hl, hrel⟩))
          (fun hs => hfree (Or.inl ⟨Or.inr hs, hrel⟩))
    · rintro ⟨hconv, h100, hb⟩ (⟨hmark, hrel⟩ | hlt | hbit)
      · exact hrel (h.reached k hk h100 hb hconv hmark)
      · omega
      · exact hb hbit

/-- With two megabytes the spare bit of frame 513 stays clear, though the machine has
no such frame. -/
theorem exactFreeSet_fails : ¬ ∀ (m : Mem) (memMap : List EfiMemoryDescriptor),
    WellFormedMap memMap → HoldsBitmap memMap →
      ExactFreeSet memMap (readEfiMemoryMap (bootKernel m) memMap) := by
  intro h
  obtain ⟨hfree, -⟩ :=
    h (fun _ => 0) twoMegabytes twoMegabytes_wellFormed holdsBitmap_twoMegabytes
  rw [readEfiMemoryMap_pageBitmap, initialBitmap_twoMegabytes] at hfree
  have hclear : (readEfiMemoryMap (bootKernel fun _ => 0) twoMegabytes).marked 513 = false := by
    rw [marked_eq_false_iff (by rw [initialBitmap_twoMegabytes]; decide),
      initMarked_twoMegabytes _ (by omega)]
    omega
  obtain ⟨⟨desc, hmem, -, hholds⟩, -⟩ := (hfree 513 (by decide)).mp hclear
  obtain rfl := List.mem_singleton.mp hmem
  exact absurd hholds.2 (by decide)

/-! ## Only conventional memory is handed out -/

/-- The condition on the input: among the first `size` frames, those that are never
marked and those that the loops of `unreserve_pages` reach are conventional. -/
structure NoStrayFrames (m : Mem) (memMap : List EfiMemoryDescriptor) : Prop where
  swept : ∀ k < (initialBitmap memMap).size.toNat, 0x100 ≤ k → ¬ BitmapFrame memMap k →
    ¬ LeftOver m memMap k → ¬ Swept memMap k → Conventional memMap k
  released : ∀ k < (initialBitmap memMap).size.toNat, 0x100 ≤ k → ¬ BitmapFrame memMap k →
    Released memMap k → Conventional memMap k

/-- A run that requests frames and frees frames that were returned before, with the
frames returned so far. -/
inductive RequestStep : Kernel × List (BitVec 64) → Kernel × List (BitVec 64) → Prop
  | request (c : Kernel × List (BitVec 64)) : RequestStep c (grant c)
  | free (s : Kernel) (given : List (BitVec 64)) (p : BitVec 64) (hp : p ∈ given) :
      RequestStep (s, given) (freePage s p, given)

/-- The invariant of such a run: the unmarked frames that a request can reach are
usable, and so are the frames returned. -/
structure UsableInv (memMap : List EfiMemoryDescriptor) (c : Kernel × List (BitVec 64)) :
    Prop where
  hint : HintInv c.1
  bitmap : c.1.alloc.pageBitmap = initialBitmap memMap
  unmarked : ∀ k < (initialBitmap memMap).size.toNat, c.1.marked k = false →
    Conventional memMap k ∧ 0x100 ≤ k
  given : ∀ p ∈ c.2, Conventional memMap (frameIndex p) ∧ 0x100 ≤ frameIndex p

theorem UsableInv.init {m : Mem} {memMap : List EfiMemoryDescriptor}
    (h : NoStrayFrames m memMap) :
    UsableInv memMap (readEfiMemoryMap (bootKernel m) memMap, []) where
  hint := hintInv_readEfiMemoryMap
  bitmap := readEfiMemoryMap_pageBitmap m memMap
  unmarked := by
    intro k hk hfree
    rw [marked_eq_false_iff (by omega)] at hfree
    have h100 : 0x100 ≤ k := Nat.le_of_not_lt fun hlt => hfree (Or.inr (Or.inl hlt))
    have hb : ¬ BitmapFrame memMap k := fun hb => hfree (Or.inr (Or.inr hb))
    refine ⟨?_, h100⟩
    by_cases hrel : Released memMap k
    · exact h.released k hk h100 hb hrel
    · exact h.swept k hk h100 hb (fun hl => hfree (Or.inl ⟨Or.inl hl, hrel⟩))
        (fun hs => hfree (Or.inl ⟨Or.inr hs, hrel⟩))
  given := fun p hp => absurd hp (List.not_mem_nil)

theorem UsableInv.step {memMap : List EfiMemoryDescriptor} {c c' : Kernel × List (BitVec 64)}
    (hstep : RequestStep c c') (h : UsableInv memMap c) : UsableInv memMap c' := by
  have hlast : ∀ k < (initialBitmap memMap).size.toNat, k ≤ c.1.last := by
    intro k hk
    rw [h.hint.last_eq, h.bitmap]
    omega
  cases hstep with
  | request =>
      obtain ⟨s, given⟩ := c
      refine ⟨h.hint.requestPage, (keeps_requestPage s).pageBitmap.trans h.bitmap, ?_, ?_⟩
      · intro k hk hfree
        refine h.unmarked k hk ?_
        by_contra hm
        rw [Bool.not_eq_false] at hm
        have hm' : (grant (s, given)).1.marked k = true :=
          (marked_requestPage h.hint (hlast k hk)).mpr (Or.inl hm)
        rw [hm'] at hfree
        exact Bool.noConfusion hfree
      · intro p hp
        rcases mem_grant h.hint hp with hp | ⟨hlt, hfree, -⟩
        · exact h.given p hp
        · rw [h.bitmap] at hlt
          exact h.unmarked (frameIndex p) hlt hfree
  | free s given p hp =>
      refine ⟨h.hint.givePage .used p, (keeps_givePage .used s p).pageBitmap.trans h.bitmap, ?_,
        h.given⟩
      intro k hk hfree
      by_cases hkp : frameIndex p = k
      · rw [← hkp]
        exact h.given p hp
      · refine h.unmarked k hk ?_
        by_contra hm
        rw [Bool.not_eq_false] at hm
        rw [freePage, (marked_givePage (hlast k hk)).mpr ⟨hm, hkp⟩] at hfree
        exact Bool.noConfusion hfree

/-- Every frame that a request returned is conventional memory from `0x100` on. -/
def OnlyUsable (m : Mem) (memMap : List EfiMemoryDescriptor) : Prop :=
  ∀ c, ReflTransGen RequestStep (readEfiMemoryMap (bootKernel m) memMap, []) c →
    ∀ p ∈ c.2, Conventional memMap (frameIndex p) ∧ 0x100 ≤ frameIndex p

theorem NoStrayFrames.onlyUsable {m : Mem} {memMap : List EfiMemoryDescriptor}
    (h : NoStrayFrames m memMap) : OnlyUsable m memMap := fun _ hrun =>
  (Runs.invariant (fun _ _ hstep hinv => UsableInv.step hstep hinv) hrun (UsableInv.init h)).given

/-- **When only usable memory is handed out.**  Every run returns usable frames only,
exactly when the initialisation strays nowhere among the first `size` frames. -/
theorem requested_usable_iff (m : Mem) (memMap : List EfiMemoryDescriptor) :
    OnlyUsable m memMap ↔ NoStrayFrames m memMap := by
  refine ⟨fun h => ?_, NoStrayFrames.onlyUsable⟩
  have hfree : ∀ k < (initialBitmap memMap).size.toNat, 0x100 ≤ k → ¬ InitMarked m memMap k →
      Conventional memMap k := by
    intro k hk h100 hm
    obtain ⟨n, p, hp, rfl⟩ := exists_grant_of_not_initMarked (by omega) hk hm
    exact (h _ (Runs.iterate RequestStep.request n _) p hp).1
  constructor
  · intro k hk h100 hb hleft hswept
    refine hfree k hk h100 ?_
    rintro (⟨hmark, -⟩ | hlt | hbit)
    · exact hmark.elim hleft hswept
    · omega
    · exact hb hbit
  · intro k hk h100 hb hrel
    refine hfree k hk h100 ?_
    rintro (⟨-, hnot⟩ | hlt | hbit)
    · exact hnot hrel
    · omega
    · exact hb hbit

/-- Below 16 GiB, and with no conventional range over 2 GiB, nothing strays. -/
theorem noStrayFrames_of_small (m : Mem) {memMap : List EfiMemoryDescriptor}
    (hwf : WellFormedMap memMap) (hlength : memMap.length ≤ 2 ^ 31)
    (hsmall : ∀ desc ∈ memMap, desc.type = 7 → desc.numPages.toNat ≤ 2 ^ 19)
    (hsize : (initialBitmap memMap).size.toNat ≤ 2 ^ 19) : NoStrayFrames m memMap where
  swept := by
    intro k hk _ _ _ hswept
    refine absurd ((loopFrames_zero_iff (by omega)).mpr ⟨?_, by omega⟩) hswept
    have h := initialBitmap_size memMap
    have hcount : (totalMem memMap / 4096 + 1).toNat = totalFrames memMap + 1 := by
      have hlt := totalFrames_lt memMap
      rw [BitVec.toNat_add, toNat_totalMem_div]
      simp only [BitVec.ofNat_eq_ofNat, BitVec.toNat_ofNat]
      omega
    rw [hcount]
    omega
  released := by
    rintro k - - - ⟨desc, hread, h7, hloop⟩
    have hmem := (entryRead_iff hlength).mp hread
    exact ⟨desc, hmem, h7, (loopFrames_iff (hsmall desc hmem h7) (hwf.fits desc hmem)).mp hloop⟩

/-- A memory map over 16 GiB: sixteen megabytes of conventional memory and a large
range of another type. -/
def sixteenGigabytes : List EfiMemoryDescriptor := [⟨7, 0x100000, 0x1000⟩, ⟨0, 0x1100000, 0x400000⟩]

theorem sixteenGigabytes_wellFormed : WellFormedMap sixteenGigabytes where
  aligned := by decide
  fits := by decide
  disjoint := by
    refine List.pairwise_pair.mpr ?_
    rintro k ⟨⟨h1, h2⟩, h3, h4⟩
    simp at h2 h3
    omega

theorem initialBitmap_sixteenGigabytes : initialBitmap sixteenGigabytes = ⟨0x80201, 0x100000⟩ := by
  decide +kernel

theorem holdsBitmap_sixteenGigabytes : HoldsBitmap sixteenGigabytes := by
  refine ⟨⟨7, 0x100000, 0x1000⟩, by simp [sixteenGigabytes], rfl, ?_, ?_⟩
  · intro e he h7
    rcases List.mem_pair.mp he with rfl | rfl
    · exact le_refl _
    · exact absurd h7 (by decide)
  · rw [initialBitmap_sixteenGigabytes]
    decide

/-- Frame `2 ^ 19` is never reserved, since its address does not fit the product of the
loop, and it is not conventional memory. -/
theorem requested_unusable : ¬ ∀ (m : Mem) (memMap : List EfiMemoryDescriptor),
    WellFormedMap memMap → HoldsBitmap memMap → OnlyUsable m memMap := by
  intro h
  have hall := h (fun _ => 0) sixteenGigabytes sixteenGigabytes_wellFormed
    holdsBitmap_sixteenGigabytes
  have hfree : ¬ InitMarked (fun _ => 0) sixteenGigabytes (2 ^ 19) := by
    rintro (⟨⟨hbit, -⟩ | hswept, -⟩ | hlt | hbitmap)
    · simp [Bitmap.marked] at hbit
    · exact absurd ((loopFrames_zero_iff (by omega)).mp hswept).2 (by omega)
    · omega
    · rw [BitmapFrame, initialBitmap_sixteenGigabytes, loopFrames_iff (by decide) (by decide)]
        at hbitmap
      exact absurd hbitmap (by decide)
  obtain ⟨n, p, hp, hframe⟩ := exists_grant_of_not_initMarked (by omega)
    (by rw [initialBitmap_sixteenGigabytes]; decide) hfree
  obtain ⟨⟨desc, hmem, h7, hholds⟩, -⟩ :=
    hall _ (Runs.iterate RequestStep.request n _) p hp
  rw [hframe] at hholds
  rcases List.mem_pair.mp hmem with rfl | rfl
  · exact absurd hholds.2 (by decide)
  · exact absurd h7 (by decide)

end EtaOs
