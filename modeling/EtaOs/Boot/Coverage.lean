import EtaOs.Boot.Granted
import Mathlib.Order.Interval.Finset.Nat

/-!
# Which pages are mapped to themselves

When `prepare_mem` loads the new PML4, every page that the kernel will touch has to be
mapped to itself: the pages of the RAM descriptors, and those of the framebuffer.  The
first loop runs to the sum of the descriptor sizes, which is below the end of memory when
there are gaps, and both loops go on past the 48 bits of the walk.

The result is an equivalence whose right side only speaks of the addresses that the loops visit.
It rests on one fact about the run: of several calls of `map_mem` whose addresses have the same
table indices, the last one is in force.

* `Required`: the pages that have to be mapped.
* `MappedToItself`: the address visited last among those with the table indices of the page
  lies in the page.
* `prepareMem_covers_iff`: the required pages walk to themselves exactly when they are
  `MappedToItself`.
-/

namespace EtaOs

open ByteMemory IntLoop RadixTree

/-- The types of `EFI_MEMORY_TYPE_STRINGS` that are memory: all but reserved (0), unusable
(8), memory-mapped I/O (11 and 12) and PAL code (13). -/
def EfiMemoryDescriptor.IsRam (desc : EfiMemoryDescriptor) : Prop :=
  desc.type ∈ ([1, 2, 3, 4, 5, 6, 7, 9, 10] : List (BitVec 32))

instance (desc : EfiMemoryDescriptor) : Decidable desc.IsRam :=
  inferInstanceAs (Decidable (desc.type ∈ ([1, 2, 3, 4, 5, 6, 7, 9, 10] : List (BitVec 32))))

/-- Page `k` holds a byte of the framebuffer. -/
def TouchedByFrameBuf (info : BootInfo) (k : ℕ) : Prop :=
  ∃ a : BitVec 64, (a - info.baseAdress).toNat < info.bufferSize.toNat ∧ frameIndex a = k

/-- The pages that have to be mapped to themselves. -/
def Required (info : BootInfo) (k : ℕ) : Prop :=
  (∃ desc ∈ info.memMap, desc.IsRam ∧ desc.Holds k) ∨ TouchedByFrameBuf info k

/-- The address of page `k`. -/
def pageAddress (k : ℕ) : BitVec 64 := BitVec.ofNat 64 (4096 * k)

/-- The required pages walk to themselves in the tables that are loaded. -/
def Covers (info : BootInfo) (s : Kernel) : Prop :=
  ∀ root, s.cr3 = some root → ∀ k, Required info k →
    walk s.mem root (pageAddress k) = some (pageAddress k)

/-- Of the addresses the loops visit that agree with page `k` in bits 12 to 47, the last
one lies in page `k`. -/
def MappedToItself (info : BootInfo) (k : ℕ) : Prop :=
  ∃ x, LastMapped info (pageAddress k) x ∧ frameOf x = pageAddress k

variable {m : Mem} {info : BootInfo} {s' : Kernel}

/-- **What `prepare_mem` maps.**  On a well-formed map, when the PML4 is loaded and no
request returned `NULL`, all required pages walk to themselves exactly when the loops map
each of them to itself and not to another page afterwards. -/
theorem prepareMem_covers_iff (hwf : WellFormedMap info.memMap) (hfb : FrameBufInReach info)
    (hrun : prepareMem (bootKernel m) info = some s') (hnull : ∀ r ∈ s'.requests, r.frame ≠ 0) :
    Covers info s' ↔ ∀ k, Required info k → MappedToItself info k := by
  obtain ⟨-, hcr3, -, hwalk⟩ :=
    prepareMem_tables hwf hfb hrun (granted_of_ne_zero hwf hfb hrun hnull)
  constructor
  · intro h k hk
    exact (hwalk _ _).mp (h _ hcr3 k hk)
  · intro h root hroot k hk
    obtain rfl := Option.some.inj (hcr3.symm.trans hroot)
    exact (hwalk _ _).mpr (h k hk)

/-! ## Below 48 bits -/

/-- Two addresses below `2 ^ 48` with the same table indices are in one page. -/
theorem samePage_iff_of_lt {v w : BitVec 64} (hv : v.toNat < 2 ^ 48) (hw : w.toNat < 2 ^ 48) :
    SamePage v w ↔ v.toNat / 4096 = w.toNat / 4096 := by
  have hextract : ∀ u : BitVec 64, u.toNat < 2 ^ 48 →
      (u.extractLsb' 12 36).toNat = u.toNat / 4096 := by
    intro u hu
    rw [BitVec.extractLsb'_toNat, Nat.shiftRight_eq_div_pow]
    omega
  unfold SamePage
  rw [← hextract v hv, ← hextract w hw, BitVec.toNat_inj]

/-- An address below `2 ^ 52` is cut to its page. -/
theorem frameOf_toNat {x : BitVec 64} (hx : x.toNat < 2 ^ 52) :
    (frameOf x).toNat = 4096 * (x.toNat / 4096) := by
  have hbits : frameOf x = x >>> 12 <<< 12 := by
    apply BitVec.eq_of_getLsbD_eq
    intro j hj
    rw [frameOf, BitVec.getLsbD_and, getLsbD_addressMask hj, BitVec.getLsbD_shiftLeft,
      BitVec.getLsbD_ushiftRight]
    rcases Nat.lt_or_ge j 12 with h | h
    · simp [h]
    · rw [show 12 + (j - 12) = j by omega]
      rcases Nat.lt_or_ge j 52 with h52 | h52
      · simp [h, h52, hj]
      · have hzero : x.getLsbD j = false :=
          Nat.testBit_lt_two_pow (lt_of_lt_of_le hx (Nat.pow_le_pow_right (by decide) h52))
        simp [hzero]
  rw [hbits, BitVec.toNat_shiftLeft, BitVec.toNat_ushiftRight, Nat.shiftLeft_eq,
    Nat.shiftRight_eq_div_pow]
  omega

theorem pageAddress_toNat {k : ℕ} (hk : k < 2 ^ 52) : (pageAddress k).toNat = 4096 * k := by
  rw [pageAddress, BitVec.toNat_ofNat]
  omega

/-- The loop over the framebuffer visits an address of page `k`. -/
def InFrameBufLoop (info : BootInfo) (k : ℕ) : Prop :=
  ∃ x, Visited info.baseAdress (frameBufEnd info) x ∧ frameIndex x = k

section Small

variable (htotal : (totalMem info.memMap).toNat ≤ 2 ^ 48)
  (hframe : ∀ x, Visited info.baseAdress (frameBufEnd info) x → x.toNat < 2 ^ 48)

include htotal hframe

/-- **Where the loops map a page to itself**, when neither reaches `2 ^ 48`: below the sum
of the descriptors, and in the loop over the framebuffer. -/
theorem mappedToItself_iff_of_lt {k : ℕ} (hk : k < 2 ^ 52) :
    MappedToItself info k ↔ 4096 * k < (totalMem info.memMap).toNat ∨ InFrameBufLoop info k := by
  have hpage := pageAddress_toNat hk
  have hcut : ∀ {x : BitVec 64}, x.toNat < 2 ^ 48 →
      (frameOf x = pageAddress k ↔ x.toNat / 4096 = k) := by
    intro x hx
    rw [← BitVec.toNat_inj, frameOf_toNat (by omega), hpage]
    omega
  -- below `2 ^ 48` an address with the table indices of page `k` lies in page `k`
  have hsame : ∀ {x : BitVec 64}, x.toNat < 2 ^ 48 → 4096 * k < 2 ^ 48 →
      (SamePage x (pageAddress k) ↔ x.toNat / 4096 = k) := by
    intro x hx hk48
    rw [samePage_iff_of_lt hx (by omega), hpage]
    omega
  have hmem : ∀ {x : BitVec 64}, Visited 0 (totalMem info.memMap) x → x.toNat < 2 ^ 48 :=
    fun hx => lt_of_lt_of_le hx.2.2 htotal
  unfold InFrameBufLoop
  simp only [frameIndex_eq]
  constructor
  · rintro ⟨x, ⟨hvisited, -⟩ | ⟨-, hvisited, -⟩, hx⟩
    · exact Or.inr ⟨x, hvisited, (hcut (hframe x hvisited)).mp hx⟩
    · have hxk := (hcut (hmem hvisited)).mp hx
      have hmod : x.toNat % 4096 = 0 := hvisited.2.1
      have hlt := hvisited.2.2
      exact Or.inl (by omega)
  · intro h
    by_cases hloop : ∃ x, Visited info.baseAdress (frameBufEnd info) x ∧ x.toNat / 4096 = k
    · -- the loop over the framebuffer visits the page once
      obtain ⟨x, hvisited, hxk⟩ := hloop
      have hx := hframe x hvisited
      refine ⟨x, Or.inl ⟨hvisited, (hsame hx (by omega)).mpr hxk, fun y hy hyk => ?_⟩,
        (hcut hx).mpr hxk⟩
      have hdiv := (hsame (hframe y hy) (by omega)).mp hyk
      have hxmod := hvisited.2.1
      have hymod := hy.2.1
      omega
    · -- the first loop visits it, and the second does not visit it again
      have hlt := h.resolve_right hloop
      refine ⟨pageAddress k,
        Or.inr ⟨fun y hy hyk => hloop ⟨y, hy, ?_⟩, ?_, rfl, fun y hy hyk => ?_⟩,
        (hcut (by omega)).mpr (by omega)⟩
      · exact (hsame (hframe y hy) (by omega)).mp hyk
      · refine ⟨Nat.zero_le _, ?_, by omega⟩
        show (pageAddress k).toNat % 4096 = 0
        omega
      · have hdiv := (hsame (hmem hy) (by omega)).mp hyk
        have hmod : y.toNat % 4096 = 0 := hy.2.1
        omega

end Small

section NoWrap

variable (htotal : (totalMem info.memMap).toNat ≤ 2 ^ 48)
  (hend : info.baseAdress.toNat + info.bufferSize.toNat + 4096 ≤ 2 ^ 48)

include hend

theorem frameBufEnd_toNat : (frameBufEnd info).toNat =
    info.baseAdress.toNat + info.bufferSize.toNat + 4096 := by
  rw [frameBufEnd]
  bv_omega

theorem visited_frameBuf_lt (x : BitVec 64)
    (hx : Visited info.baseAdress (frameBufEnd info) x) : x.toNat < 2 ^ 48 := by
  have hlt := hx.2.2
  have heq := frameBufEnd_toNat hend
  omega

/-- Every page of the framebuffer is in its loop, which takes one page more than it needs. -/
theorem TouchedByFrameBuf.inLoop {k : ℕ} (h : TouchedByFrameBuf info k) :
    InFrameBufLoop info k := by
  obtain ⟨a, ha, rfl⟩ := h
  have heq := frameBufEnd_toNat hend
  have hoff : a.toNat = info.baseAdress.toNat + (a - info.baseAdress).toNat := by bv_omega
  -- the address of the page at the offset of the base
  obtain ⟨x, hx⟩ : ∃ x : BitVec 64, x.toNat =
      4096 * (a.toNat / 4096) + info.baseAdress.toNat % 4096 := by
    refine ⟨BitVec.ofNat 64 (4096 * (a.toNat / 4096) + info.baseAdress.toNat % 4096), ?_⟩
    rw [BitVec.toNat_ofNat]
    omega
  refine ⟨x, ⟨?_, ?_, ?_⟩, ?_⟩
  · omega
  · omega
  · omega
  · rw [frameIndex_eq, frameIndex_eq]
    omega

include htotal

/-- When neither loop reaches `2 ^ 48`, the pages that are missed are those of RAM above the
sum of the descriptors. -/
theorem required_mapped_iff_of_lt (hwf : WellFormedMap info.memMap) :
    (∀ k, Required info k → MappedToItself info k) ↔
      ∀ desc ∈ info.memMap, desc.IsRam → ∀ k, desc.Holds k →
        4096 * k < (totalMem info.memMap).toNat ∨ InFrameBufLoop info k := by
  have hmapped : ∀ {k : ℕ}, k < 2 ^ 52 → (MappedToItself info k ↔
      4096 * k < (totalMem info.memMap).toNat ∨ InFrameBufLoop info k) :=
    mappedToItself_iff_of_lt htotal (visited_frameBuf_lt hend)
  have hholds : ∀ desc ∈ info.memMap, ∀ k, desc.Holds k → k < 2 ^ 52 := by
    intro desc hdesc k hk
    have hfits := hwf.fits desc hdesc
    have hlt := hk.2
    omega
  constructor
  · intro h desc hdesc hram k hk
    exact (hmapped (hholds desc hdesc k hk)).mp (h k (Or.inl ⟨desc, hdesc, hram, hk⟩))
  · rintro h k (⟨desc, hdesc, hram, hk⟩ | htouched)
    · exact (hmapped (hholds desc hdesc k hk)).mpr (h desc hdesc hram k hk)
    · have hlt : k < 2 ^ 52 := by
        obtain ⟨a, -, rfl⟩ := htouched
        rw [frameIndex_eq]
        have ha := a.isLt
        omega
      exact (hmapped hlt).mpr (Or.inr (htouched.inLoop hend))

end NoWrap

/-! ## A machine with 16 megabytes -/

/-- A frame of a conventional range is left unmarked before paging, when it is above the low
megabyte and neither the bitmap nor the kernel is in it. -/
theorem marked_of_released {k : ℕ} (hk : k ≤ (initialBitmap info.memMap).last)
    (hreleased : Released info.memMap k) (hlow : 0x100 ≤ k) (hnot : ¬ BitmapFrame info.memMap k)
    (hkernel : ¬ LoopFrames info.kernelStart ((info.kernelEnd - info.kernelStart) / 4096 + 1) k) :
    (beforePaging m info).marked k = false := by
  have hlast := (AllocInv.init m info.memMap).last
  rw [← Bool.not_eq_true]
  intro hm
  rcases (marked_forPages_takePage (hlast ▸ hk)).mp hm with hinit | hloop
  · rcases (marked_readEfiMemoryMap hk).mp hinit with ⟨-, hno⟩ | hbios | hbitmap
    · exact hno hreleased
    · omega
    · exact hnot hbitmap
  · exact hkernel hloop

/-- One conventional range of 16 MiB from `base` on, a kernel at 2 MiB, and a page of
framebuffer at 12 MiB. -/
def sixteenMegabytes (base : BitVec 64) : BootInfo where
  memMap := [⟨7, base, 0x1000⟩]
  baseAdress := 0xc00000
  bufferSize := 0x1000
  kernelStart := 0x200000
  kernelEnd := 0x204000

theorem visited_sixteenMegabytes_lt {base : BitVec 64} (x : BitVec 64)
    (hx : Visited (sixteenMegabytes base).baseAdress (frameBufEnd (sixteenMegabytes base)) x) :
    x.toNat < 2 ^ 48 := by
  have hend : (0xc00000 : BitVec 64).toNat + (0x1000 : BitVec 64).toNat + 4096 ≤ 2 ^ 48 := by
    decide
  exact visited_frameBuf_lt hend x hx

section SixteenMegabytes

variable {base : BitVec 64} (hbase : base = 0 ∨ base = 0x100000)

include hbase

theorem sixteenMegabytes_wellFormed : WellFormedMap (sixteenMegabytes base).memMap := by
  refine ⟨fun desc hdesc => ?_, fun desc hdesc => ?_, List.pairwise_singleton _ _⟩
  · obtain rfl := List.mem_singleton.mp hdesc
    rcases hbase with rfl | rfl <;> rfl
  · obtain rfl := List.mem_singleton.mp hdesc
    rcases hbase with rfl | rfl <;> decide

theorem totalMem_sixteenMegabytes : totalMem (sixteenMegabytes base).memMap = 0x1000000 := by
  rcases hbase with rfl | rfl <;> decide +kernel

theorem totalFrames_sixteenMegabytes : totalFrames (sixteenMegabytes base).memMap = 0x1000 := by
  rw [totalFrames, totalMem_sixteenMegabytes hbase]
  rfl

theorem totalMem_sixteenMegabytes_le :
    (totalMem (sixteenMegabytes base).memMap).toNat ≤ 2 ^ 44 := by
  rw [totalMem_sixteenMegabytes hbase]
  decide

theorem initialBitmap_sixteenMegabytes :
    initialBitmap (sixteenMegabytes base).memMap = ⟨513, base⟩ := by
  rcases hbase with rfl | rfl <;> decide +kernel

theorem holdsBitmap_sixteenMegabytes : HoldsBitmap (sixteenMegabytes base).memMap := by
  refine ⟨⟨7, base, 0x1000⟩, List.mem_singleton_self _, rfl, fun e he _ => ?_, ?_⟩
  · obtain rfl := List.mem_singleton.mp he
    exact le_refl _
  · rw [initialBitmap_sixteenMegabytes hbase]
    show 513 ≤ 4096 * 0x1000
    omega

theorem reach_sixteenMegabytes : reach (sixteenMegabytes base).memMap = 513 := by
  rw [reach, initialBitmap_sixteenMegabytes hbase]
  rfl

/-- The frames of the second half of the first two megabytes are left unmarked before paging,
but for those of the bitmap. -/
theorem marked_sixteenMegabytes (m : Mem) {k : ℕ} (hbase' : base.toNat ≤ 4096 * k) (hge : 0x100 ≤ k)
    (hlt : k < 0x200) (hnot : ¬ BitmapFrame (sixteenMegabytes base).memMap k) :
    (beforePaging m (sixteenMegabytes base)).marked k = false := by
  have hlast : (initialBitmap (sixteenMegabytes base).memMap).last = 4104 := by
    rw [initialBitmap_last, initialBitmap_sixteenMegabytes hbase]
    show 8 * 513 = 4104
    omega
  have hlength : (sixteenMegabytes base).memMap.length ≤ 2 ^ 31 := by
    show 1 ≤ 2 ^ 31
    omega
  refine marked_of_released (by omega) ⟨⟨7, base, 0x1000⟩, (entryRead_iff hlength).mpr
    (List.mem_singleton_self _), rfl, ?_⟩ hge hnot fun hkernel => ?_
  · have hpages : (0x1000 : BitVec 64).toNat = 0x1000 := rfl
    rcases hbase with rfl | rfl
    · rw [loopFrames_iff (by decide) (by decide), hpages]
      simp
      omega
    · rw [loopFrames_iff (by decide) (by decide), hpages]
      simp at hbase' ⊢
      omega
  · have hpages : LoopFrames 0x200000 ((0x204000 - 0x200000) / 4096 + 1) k := hkernel
    rw [loopFrames_iff (by decide) (by decide)] at hpages
    have hge' : 0x200 ≤ k := hpages.1
    omega

/-- The frames of the bitmap are the first ones of the range. -/
theorem bitmapFrame_sixteenMegabytes {k : ℕ}
    (h : BitmapFrame (sixteenMegabytes base).memMap k) : 4096 * k ≤ base.toNat + 4096 := by
  rw [BitmapFrame, initialBitmap_sixteenMegabytes hbase] at h
  rcases hbase with rfl | rfl
  · rw [loopFrames_iff (by decide) (by decide)] at h
    simp at h
    omega
  · rw [loopFrames_iff (by decide) (by decide)] at h
    simp at h ⊢
    omega

/-- Frames that are left unmarked before paging. -/
theorem unmarked_sixteenMegabytes (m : Mem) : Finset.Ico 0x110 0x200 ⊆
    unmarked (sixteenMegabytes base).memMap (fun k => 3072 ≤ k)
      (beforePaging m (sixteenMegabytes base)) := by
  intro k hk
  obtain ⟨hge, hlt⟩ := Finset.mem_Ico.mp hk
  have hle : base.toNat ≤ 0x100000 := by
    rcases hbase with rfl | rfl <;> decide
  refine mem_unmarked.mpr ⟨by rw [reach_sixteenMegabytes hbase]; omega, ?_, by omega⟩
  refine marked_sixteenMegabytes hbase m (by omega) (by omega) hlt fun hbitmap => ?_
  have hframe := bitmapFrame_sixteenMegabytes hbase hbitmap
  omega

omit hbase in
/-- The frames that the framebuffer locks. -/
theorem loopFrames_sixteenMegabytes {k : ℕ} (h : LoopFrames (sixteenMegabytes base).baseAdress
    (frameBufPages (sixteenMegabytes base)) k) : 3072 ≤ k := by
  have hpages : LoopFrames 0xc00000 ((0x1000 + 4096) / 4096 + 1) k := h
  rw [loopFrames_iff (by decide) (by decide)] at hpages
  exact hpages.1

end SixteenMegabytes

/-- The paths of the tables for the first 16 MiB, and for the first page of the heap. -/
def lowPaths : Finset (List (BitVec 9)) :=
  {[0], [0, 0]} ∪ ((Finset.range 8).image fun j => [0, 0, BitVec.ofNat 9 j]) ∪
    {[32], [32, 0], [32, 0, 0]}

theorem tableIndex_toNat (v : BitVec 64) (level : ℕ) :
    (tableIndex v level).toNat = v.toNat / 2 ^ (12 + 9 * level) % 2 ^ 9 := by
  rw [tableIndex, BitVec.extractLsb'_toNat, Nat.shiftRight_eq_div_pow]

theorem pathsIn_lowPaths {v : BitVec 64} (hv : v.toNat < 2 ^ 24) : PathsIn lowPaths v := by
  have h3 : tableIndex v 3 = 0 := BitVec.eq_of_toNat_eq (by rw [tableIndex_toNat]; simp; omega)
  have h2 : tableIndex v 2 = 0 := BitVec.eq_of_toNat_eq (by rw [tableIndex_toNat]; simp; omega)
  have h1 : (tableIndex v 1).toNat < 8 := by
    rw [tableIndex_toNat]
    omega
  have hlow : [(0 : BitVec 9), 0, tableIndex v 1] ∈
      (Finset.range 8).image fun j => [(0 : BitVec 9), 0, BitVec.ofNat 9 j] :=
    Finset.mem_image.mpr ⟨_, Finset.mem_range.mpr h1, by simp⟩
  rw [pathsIn_iff, pathsOf, h3, h2, Finset.insert_subset_iff, Finset.insert_subset_iff,
    Finset.singleton_subset_iff]
  exact ⟨by simp [lowPaths], by simp [lowPaths],
    Finset.mem_union_left _ (Finset.mem_union_right _ hlow)⟩

theorem card_lowPaths : lowPaths.card ≤ 13 :=
  calc lowPaths.card
      ≤ ({[0], [0, 0]} : Finset (List (BitVec 9))).card +
          ((Finset.range 8).image fun j => [(0 : BitVec 9), 0, BitVec.ofNat 9 j]).card +
            ({[32], [32, 0], [32, 0, 0]} : Finset (List (BitVec 9))).card :=
        (Finset.card_union_le _ _).trans (Nat.add_le_add_right (Finset.card_union_le _ _) _)
    _ ≤ 2 + 8 + 3 := Nat.add_le_add (Nat.add_le_add Finset.card_le_two
        (Finset.card_image_le.trans (Finset.card_range 8).le)) Finset.card_le_three

theorem frameBufInReach_sixteenMegabytes {base : BitVec 64}
    (hbase : base = 0 ∨ base = 0x100000) : FrameBufInReach (sixteenMegabytes base) := by
  refine frameBufInReach_of_small ?_
  rw [initialBitmap_sixteenMegabytes hbase]
  show 513 < 2 ^ 31
  omega

/-- The addresses that `prepare_mem` maps have their tables at the low paths. -/
theorem pathsIn_sixteenMegabytes {base i : BitVec 64} (hbase : base = 0 ∨ base = 0x100000) :
    (Visited 0 (totalMem (sixteenMegabytes base).memMap) i → PathsIn lowPaths i) ∧
      (Visited (sixteenMegabytes base).baseAdress (frameBufEnd (sixteenMegabytes base)) i →
        PathsIn lowPaths i) := by
  have hend : (frameBufEnd (sixteenMegabytes base)).toNat = 0xc02000 := by
    show ((0xc00000 : BitVec 64) + (0x1000 + 4096)).toNat = 0xc02000
    decide
  constructor
  · rintro ⟨-, -, hlt⟩
    rw [totalMem_sixteenMegabytes hbase] at hlt
    exact pathsIn_lowPaths (hlt.trans_le (by decide))
  · rintro ⟨-, -, hlt⟩
    rw [hend] at hlt
    exact pathsIn_lowPaths (by omega)

theorem prepareMem_sixteenMegabytes_isSome (m : Mem) (base : BitVec 64) :
    ∃ s', prepareMem (bootKernel m) (sixteenMegabytes base) = some s' :=
  prepareMem_isSome m (sixteenMegabytes base) (show ((0xc00000 : BitVec 64) +
    (0x1000 + 4096)).toNat ≤ 2 ^ 64 - 4096 by decide)

/-- There are frames for the tables at the low paths, and for pages of the heap. -/
theorem room_sixteenMegabytes (m : Mem) {base : BitVec 64} (hbase : base = 0 ∨ base = 0x100000)
    {n : ℕ} (hn : n ≤ 0x80) :
    lowPaths.card + n + 1 < (unmarked (sixteenMegabytes base).memMap (fun k => 3072 ≤ k)
      (beforePaging m (sixteenMegabytes base))).card := by
  have hpaths := card_lowPaths
  have hcard := Finset.card_le_card (unmarked_sixteenMegabytes hbase m)
  rw [Nat.card_Ico] at hcard
  omega

/-- `prepare_mem` returns, with frames left for pages of the heap. -/
theorem prepareMem_sixteenMegabytes (m : Mem) {base : BitVec 64}
    (hbase : base = 0 ∨ base = 0x100000) {n : ℕ} (hn : n ≤ 0x80) :
    ∃ s', prepareMem (bootKernel m) (sixteenMegabytes base) = some s' ∧
      Supply (sixteenMegabytes base).memMap (pml4 m (sixteenMegabytes base)) lowPaths
        (fun k => 3072 ≤ k) n s' := by
  obtain ⟨s', hrun⟩ := prepareMem_sixteenMegabytes_isSome m base
  exact ⟨s', hrun, supply_of_room (sixteenMegabytes_wellFormed hbase)
    (frameBufInReach_sixteenMegabytes hbase) (room_sixteenMegabytes m hbase hn)
    (fun _ _ h => loopFrames_sixteenMegabytes h) (fun _ => (pathsIn_sixteenMegabytes hbase).1)
    (fun _ => (pathsIn_sixteenMegabytes hbase).2) hrun⟩

/-- The pages of 16 MiB from address `0` on are all mapped to themselves. -/
theorem prepareMem_covers_sixteenMegabytes :
    ∃ s', prepareMem (bootKernel fun _ => 0) (sixteenMegabytes 0) = some s' ∧
      Covers (sixteenMegabytes 0) s' := by
  have hbase : (0 : BitVec 64) = 0 ∨ (0 : BitVec 64) = 0x100000 := Or.inl rfl
  have hwf := sixteenMegabytes_wellFormed hbase
  obtain ⟨s', hrun, hsupply⟩ := prepareMem_sixteenMegabytes (fun _ => 0) hbase (Nat.zero_le _)
  have hfb := frameBufInReach_sixteenMegabytes hbase
  have htotal := totalMem_sixteenMegabytes hbase
  refine ⟨s', hrun, (prepareMem_covers_iff hwf hfb hrun
    fun r hr => (hsupply.tables.given r hr).2.1).mpr ?_⟩
  refine (required_mapped_iff_of_lt (by rw [htotal]; decide) (by decide) hwf).mpr ?_
  intro desc hdesc _ k hk
  obtain rfl := List.mem_singleton.mp hdesc
  have hlt : k < 0x1000 := hk.2
  rw [htotal]
  exact Or.inl (by simp; omega)

/-- With 16 MiB from 1 MiB on, the last megabyte is above the sum of the descriptors, and
its pages are not mapped. -/
theorem prepareMem_covers_fails : ¬ ∀ (m : Mem) (info : BootInfo) (s' : Kernel),
    WellFormedMap info.memMap → HoldsBitmap info.memMap →
      prepareMem (bootKernel m) info = some s' → (∀ r ∈ s'.requests, r.frame ≠ 0) →
      Covers info s' := by
  intro h
  have hbase : (0x100000 : BitVec 64) = 0 ∨ (0x100000 : BitVec 64) = 0x100000 := Or.inr rfl
  have hwf := sixteenMegabytes_wellFormed hbase
  obtain ⟨s', hrun, hsupply⟩ := prepareMem_sixteenMegabytes (fun _ => 0) hbase (Nat.zero_le _)
  have hfb := frameBufInReach_sixteenMegabytes hbase
  have hgranted := fun r hr => (hsupply.tables.given r hr).2
  have hcovers := h _ _ s' hwf (holdsBitmap_sixteenMegabytes hbase) hrun
    fun r hr => (hgranted r hr).1
  obtain ⟨-, hcr3, -, hwalk⟩ := prepareMem_tables hwf hfb hrun hgranted
  have htotal := totalMem_sixteenMegabytes hbase
  -- page `0x1000` is the first above the sum
  have hmapped : MappedToItself (sixteenMegabytes 0x100000) 0x1000 :=
    (hwalk _ _).mp (hcovers _ hcr3 _ (Or.inl ⟨_, List.mem_singleton_self _, by decide,
      ⟨by decide, by decide⟩⟩))
  rcases (mappedToItself_iff_of_lt (by rw [htotal]; decide) (visited_frameBuf_lt (by decide))
    (by decide)).mp hmapped with hlt | ⟨x, hx, hxk⟩
  · rw [htotal] at hlt
    exact absurd hlt (by decide)
  · have hlt : x.toNat < 0xc02000 := hx.2.2
    rw [frameIndex_eq] at hxk
    omega

end EtaOs
