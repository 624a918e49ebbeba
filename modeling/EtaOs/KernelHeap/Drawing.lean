import EtaOs.Input.Keyboard
import EtaOs.KernelHeap.BootImage
import EtaOs.Renderer.Paged

/-!
# The handler of the keyboard draws in memory

The pixels of the renderer are bytes of the machine.  A key that is handled stores some of them
through pointers that begin at the base of the framebuffer, and reads the glyph of its character
from where the boot loader has put the font.

The frames of the framebuffer were in use when the kernel was started, or are beyond the reach of
the allocator; so they are frames of the kernel's own, and a pixel that lies in the framebuffer is
a store of the kernel's own like others.  What is left to show is that the bytes of the framebuffer
are the pixels of the renderer, which takes arithmetic, and that the glyphs are still there, which
is a case of what the boot loader left in memory.

Nothing of this holds of a character that is drawn below the framebuffer, or whose glyph lies in
front of the font.  `KeyInside` says of a key that it does neither.

* `HeapM.handleKeyboard`: the stores and loads of `handle_keyboard`.
* `KeyInside`: a key stays inside the framebuffer and the font.
* `ShowsPixels`: the bytes of the framebuffer are the pixels.
* `screenFrames`, `FontAt`: the frames of the framebuffer and of the font.
* `DrawnInv`, `DrawnInv.handleKeyboard`: the invariant, and a key.
-/

namespace EtaOs

open BasicRenderer ByteMemory CountedLoop Fallible QWERTZKeyboard RadixTree

/-! ## A key -/

section Key

variable {σ : Type} {next : BitVec 8} {t : Target} {glyphBuffer : Addr} {c : BitVec 8}
  {s : Keyboard}

/-- The stores and loads of `handle_keyboard`. -/
def HeapM.handleKeyboard (next : BitVec 8) (t : Target) (glyphBuffer : Addr) (scancode : BitVec 8)
    (s : Keyboard) : HeapM σ Unit :=
  if scancode = LEFT_SHIFT then pure ()
  else if scancode = LEFT_SHIFT + 0x80 then pure ()
  else if scancode = RIGHT_SHIFT then pure ()
  else if scancode = RIGHT_SHIFT + 0x80 then pure ()
  else if scancode = ENTER then pure ()
  else if scancode = SPACE then
    HeapM.drawChar t glyphBuffer 32 s.globalRenderer.cursorPosition
  else if scancode = BACKSPACE then HeapM.clearChar t s.globalRenderer.cursorPosition
  else
    let ascii := QWERTZKeyboard.translate next scancode (s.leftShiftPressed || s.rightShiftPressed)
    if ascii ≠ 0 then HeapM.drawChar t glyphBuffer ascii s.globalRenderer.cursorPosition
    else pure ()

/-- **The key stays inside the framebuffer and the font.** -/
structure KeyInside (next : BitVec 8) (t : Target) (s : Keyboard) (c : BitVec 8) : Prop where
  reads : InputInside next t s (.key c)
  draws : keyChar next c (s.leftShiftPressed || s.rightShiftPressed) ≠ 0 →
    DrawnInside t (keyChar next c (s.leftShiftPressed || s.rightShiftPressed))
      s.globalRenderer.cursorPosition
  clears : c = BACKSPACE → ClearedInside t s.globalRenderer.cursorPosition

/-- Every key but the control keys draws its character. -/
theorem HeapM.handleKeyboard_of_notMem (h : c ∉ control) :
    (HeapM.handleKeyboard next t glyphBuffer c s : HeapM σ Unit) =
      if keyChar next c (s.leftShiftPressed || s.rightShiftPressed) ≠ 0 then
        HeapM.drawChar t glyphBuffer (keyChar next c (s.leftShiftPressed || s.rightShiftPressed))
          s.globalRenderer.cursorPosition
      else pure () := by
  have hne := h
  simp only [control, List.mem_cons, List.not_mem_nil, or_false, not_or] at hne
  obtain ⟨h1, h2, h3, h4, h5, h6⟩ := hne
  unfold HeapM.handleKeyboard keyChar
  rw [if_neg h1, if_neg h2, if_neg h3, if_neg h4, if_neg h5, if_neg h6, if_neg h]
  by_cases hspace : c = SPACE
  · rw [if_pos hspace, if_pos hspace, if_pos (by decide)]
  · rw [if_neg hspace, if_neg hspace]

theorem HeapM.moves_handleKeyboard {R : KernelHeap σ → KernelHeap σ → Prop} [hR : QuietRel R] :
    Moves R (HeapM.handleKeyboard next t glyphBuffer c s : HeapM σ Unit) :=
  Moves.ite (moves_pure _) <| Moves.ite (moves_pure _) <| Moves.ite (moves_pure _) <|
    Moves.ite (moves_pure _) <| Moves.ite (moves_pure _) <| HeapM.moves_drawChar.ite <|
    HeapM.moves_clearChar.ite <| HeapM.moves_drawChar.ite (moves_pure _)

/-- **A key does to memory what it does to the renderer.** -/
theorem RendersTo.handleKeyboard {I : KernelHeap σ → BasicRenderer → Prop} {k : KernelHeap σ}
    (h : RendersTo t glyphBuffer I) (hin : KeyInside next t s c) (hI : I k s.globalRenderer) :
    Returns (HeapM.handleKeyboard next t glyphBuffer c s) k
      fun _ k' => I k' (EtaOs.handleKeyboard next t c s).globalRenderer := by
  by_cases hmem : c ∈ control
  · simp only [control, List.mem_cons, List.not_mem_nil, or_false] at hmem
    rcases hmem with rfl | rfl | rfl | rfl | rfl | rfl
    · exact returns_pure hI
    · exact returns_pure hI
    · exact returns_pure hI
    · exact returns_pure hI
    · exact returns_pure (h.pixels hI rfl)
    · exact h.clearChar (hin.clears rfl) hI
  · rw [HeapM.handleKeyboard_of_notMem hmem, handleKeyboard_of_notMem hmem]
    split
    next hchar => exact h.drawChar (hin.draws hchar) (hin.reads hchar) hI
    next hchar => exact returns_pure hI

end Key

/-! ## The bytes of the framebuffer -/

section Pixels

variable {info : BootInfo} {t : Target} {m m' : Mem} {r : BasicRenderer} {y x : ℕ}

/-- **The renderer draws on the framebuffer of the boot information**, which has room for its
pixels. -/
structure DrawsOn (info : BootInfo) (t : Target) : Prop where
  base : t.targetFramebuffer.baseAdress = info.baseAdress
  fits : ∀ y x, Inside t (y, x) →
    4 * (x + y * t.targetFramebuffer.pixelsPerScanline.toNat) + 4 ≤ info.bufferSize.toNat

/-- The bytes of the framebuffer are the pixels of the renderer. -/
def ShowsPixels (t : Target) (m : Mem) (r : BasicRenderer) : Prop :=
  ∀ y x, Inside t (y, x) →
    load32 m (pixelPtr t y x) = r.pixels (x + y * t.targetFramebuffer.pixelsPerScanline.toNat)

/-- A pixel of the framebuffer has its four bytes there. -/
theorem DrawsOn.screenByte (h : DrawsOn info t) (hin : Inside t (y, x)) {j : ℕ} (hj : j < 4) :
    ScreenByte info (pixelPtr t y x + BitVec.ofNat 64 j) := by
  have hfits := h.fits y x hin
  have hsize := info.bufferSize.isLt
  unfold ScreenByte pixelPtr
  rw [h.base]
  bv_omega

/-- What is stored in no byte of the framebuffer is not seen. -/
theorem ShowsPixels.congr (h : DrawsOn info t) (hs : ShowsPixels t m r)
    (hsame : ∀ x, ScreenByte info x → m' x = m x) : ShowsPixels t m' r := by
  intro y x hin
  have hbyte : ∀ j < 4, m' (pixelPtr t y x + BitVec.ofNat 64 j) =
      m (pixelPtr t y x + BitVec.ofNat 64 j) := fun j hj => hsame _ (h.screenByte hin hj)
  rw [← hs y x hin]
  have hzero : pixelPtr t y x + BitVec.ofNat 64 0 = pixelPtr t y x := BitVec.add_zero _
  rw [← hzero, load32_offset, load16_offset, load16_offset, load32_offset, load16_offset,
    load16_offset, hbyte 0 (by omega), hbyte 1 (by omega), hbyte 2 (by omega), hbyte 3 (by omega)]

/-- Zeros are shown as such. -/
theorem showsPixels_zero (hdraws : DrawsOn info t) (hmem : ∀ x, ScreenByte info x → m x = 0)
    (hzero : ∀ y x, Inside t (y, x) →
      r.pixels (x + y * t.targetFramebuffer.pixelsPerScanline.toNat) = 0) : ShowsPixels t m r := by
  have hclear : ShowsPixels t (fun _ => 0) r := by
    intro y x hin
    rw [hzero y x hin, load32, load16, load16]
    decide
  exact hclear.congr hdraws hmem

/-- **A pixel that is stored** is the one that is seen. -/
theorem ShowsPixels.storePixel (h : DrawsOn info t) (hsize : info.bufferSize.toNat < 2 ^ 48)
    (hs : ShowsPixels t m r) (hin : Inside t (y, x)) (c : BitVec 32) :
    ShowsPixels t (ByteMemory.store32 m (pixelPtr t y x) c) (r.storePixel t y x c) := by
  intro y' x' hin'
  have hfits := h.fits y x hin
  have hfits' := h.fits y' x' hin'
  unfold BasicRenderer.storePixel
  dsimp only
  by_cases heq : x' + y' * t.targetFramebuffer.pixelsPerScanline.toNat =
      x + y * t.targetFramebuffer.pixelsPerScanline.toNat
  · have hptr : pixelPtr t y' x' = pixelPtr t y x := by
      unfold pixelPtr
      rw [heq]
    rw [hptr, heq, Function.update_self]
    exact load32_storeWord_self m _ (by omega) c
  · rw [Function.update_of_ne heq, ← hs y' x' hin']
    exact load32_storeWord_of_apart m _ c (by omega) (by omega) (by omega)

/-- Bytes that are stored one after the other are a word. -/
theorem forRange_store8 {w n : ℕ} (m : Mem) (a : Addr) (v : BitVec w) (hn : n ≤ 2 ^ 64) :
    forRange 0 n (fun j m => ByteMemory.store8 m (a + BitVec.ofNat 64 j) (v.extractLsb' (8 * j) 8))
      m = storeWord n m a v := by
  induction n with
  | zero =>
      funext x
      exact (if_neg (Nat.not_lt_zero _)).symm
  | succ n ih => rw [forRange_succ (Nat.zero_le n), ih (by omega), storeWord_succ m a v (by omega)]

end Pixels

/-! ## The frames of the framebuffer and of the font -/

section Frames

variable {info : BootInfo} {t : Target} {glyphBuffer : Addr} {m : Mem} {own : Set (BitVec 64)}

/-- The frames of the framebuffer. -/
def screenFrames (info : BootInfo) : Set (BitVec 64) := {f | ∃ x, ScreenByte info x ∧ frameOf x = f}

/-- **The font is where the boot loader has put it**: each glyph byte lies in a frame that was in
use at the start and is not the kernel's own. -/
def FontAt (info : BootInfo) (own : Set (BitVec 64)) (m : Mem) (t : Target) (glyphBuffer : Addr) :
    Prop :=
  ∀ offset, InGlyphs t offset → ∃ f, BootImage info f ∧ f ∉ own ∧
    (glyphBuffer + BitVec.ofInt 64 offset - f).toNat < 4096 ∧
    m (glyphBuffer + BitVec.ofInt 64 offset) = t.glyphBuffer offset

/-- An address below `2 ^ 48` lies in its frame. -/
theorem frameOf_of_lt {x : Addr} (hx : x.toNat < 2 ^ 48) : frameIndex (frameOf x) = frameIndex x ∧
    (x - frameOf x).toNat < 4096 := by
  have hframe := frameOf_toNat (x := x) (by omega)
  refine ⟨?_, by bv_omega⟩
  rw [frameIndex_eq, frameIndex_eq, hframe]
  omega

theorem frameByte_sub_self (f x : Addr) : frameByte f (x - f).toNat = x := by
  unfold frameByte
  bv_omega

/-- The frame of a byte of the framebuffer is one of its frames. -/
theorem mem_screenFrames {f : BitVec 64} {x : Addr} (hf : IsFrame f) (hx : (x - f).toNat < 4096)
    (hbyte : ScreenByte info x) : f ∈ screenFrames info := by
  obtain ⟨hframe, -⟩ := frame_add hf hx
  rw [add_sub_cancel] at hframe
  exact ⟨x, hbyte, hframe⟩

theorem screenByte_lt (hend : info.baseAdress.toNat + info.bufferSize.toNat + 4096 ≤ 2 ^ 48)
    {x : Addr} (hx : ScreenByte info x) : info.baseAdress.toNat ≤ x.toNat ∧ x.toNat < 2 ^ 48 := by
  unfold ScreenByte at hx
  bv_omega

/-- **The frames of the framebuffer were in use at the start.** -/
theorem usedAtBoot_screen (hend : info.baseAdress.toNat + info.bufferSize.toNat + 4096 ≤ 2 ^ 48)
    (hlow : 4096 ≤ info.baseAdress.toNat) (hscreen : ScreenApart info) {f : BitVec 64}
    (hf : f ∈ screenFrames info) : UsedAtBoot info f := by
  obtain ⟨x, hx, rfl⟩ := hf
  obtain ⟨hlo, hlt⟩ := screenByte_lt hend hx
  obtain ⟨hindex, -⟩ := frameOf_of_lt hlt
  obtain ⟨hnot, hused⟩ := hscreen x hx
  refine ⟨isFrame_frameOf x, fun hzero => ?_, hindex.symm ▸ hnot, hindex.symm ▸ hused⟩
  have hframe := frameOf_toNat (x := x) (by omega)
  rw [hzero] at hframe
  bv_omega

/-- **The glyphs are loaded as they were.** -/
theorem FontAt.load8 {root a : BitVec 64} {s : MemoryState} {offset : ℤ}
    (hfont : FontAt info own m t glyphBuffer) (hscreen : screenFrames info ⊆ own)
    (hinv : MemoryInv info.memMap root a own (imageFrames info) (clearedMemory info m) s)
    (hin : InGlyphs t offset) :
    s.machine.load8 (glyphBuffer + BitVec.ofInt 64 offset) = some (t.glyphBuffer offset) := by
  obtain ⟨f, hf, hnot, hx, hglyph⟩ := hfont offset hin
  rw [hinv.load8_image hf hnot hx, ← hglyph]
  -- a byte of the framebuffer would make its frame the kernel's own
  exact congrArg some (clearedMemory_of_not fun hbyte =>
    hnot (hscreen (mem_screenFrames hf.frame hx hbyte)))

/-- What the boot loader left in the other frames is loaded as it was. -/
theorem MemoryInv.load8_boot {root a f : BitVec 64} {s : MemoryState} {i : ℕ}
    (hinv : MemoryInv info.memMap root a (own ∪ screenFrames info) (imageFrames info)
      (clearedMemory info m) s)
    (hf : BootImage info f) (hnot : f ∉ own) (hscreen : f ∉ screenFrames info) (hi : i < 4096) :
    s.machine.load8 (frameByte f i) = some (m (frameByte f i)) := by
  have hin : (frameByte f i - f).toNat < 4096 := by rwa [frameByte_sub hi]
  rw [hinv.load8_image hf (fun h => h.elim hnot hscreen) hin]
  exact congrArg some (clearedMemory_of_not fun hbyte =>
    hscreen (mem_screenFrames hf.frame hin hbyte))

end Frames

/-! ## What is drawn -/

section Drawn

variable {info : BootInfo} {t : Target} {glyphBuffer root a : BitVec 64} {own K : Set (BitVec 64)}
  {m : Mem} {s : MemoryState} {o : Objects} {r : BasicRenderer} {alone : Prop}

/-- **The machine, its objects, and the renderer.**  If the kernel leaves the framebuffer alone, its
bytes are the pixels. -/
structure DrawnInv (info : BootInfo) (t : Target) (root a : BitVec 64) (own K : Set (BitVec 64))
    (m : Mem) (alone : Prop) (s : MemoryState) (o : Objects) (r : BasicRenderer) : Prop where
  memory : MemoryInv info.memMap root a own K m s
  objects : HoldsObjects s o
  shown : alone → ShowsPixels t s.machine.mem r

theorem DrawnInv.of_alone {alone' : Prop} (h : DrawnInv info t root a own K m alone s o r)
    (himp : alone' → alone) : DrawnInv info t root a own K m alone' s o r :=
  { h with shown := fun halone => h.shown (himp halone) }

/-- The framebuffer is mapped to itself. -/
def ScreenMapped (info : BootInfo) (s : Kernel) : Prop := ∀ x, ScreenByte info x → s.Direct x

/-- A framebuffer in memory is mapped to itself. -/
theorem MemoryInv.screenMapped (hinv : MemoryInv info.memMap root a own K m s)
    (hend : info.baseAdress.toNat + info.bufferSize.toNat + 4096 ≤ 2 ^ 48)
    (hmem : ∀ x, ScreenByte info x → frameIndex x < totalFrames info.memMap) :
    ScreenMapped info s.machine := by
  intro x hx
  obtain ⟨-, hlt⟩ := screenByte_lt hend hx
  obtain ⟨hindex, hi⟩ := frameOf_of_lt hlt
  exact hinv.direct_memory (isFrame_frameOf x) (hindex ▸ hmem x hx) hi

/-- **Nothing but memory is written**, and no table and no mark in it. -/
structure OnlyWrites (memMap : List EfiMemoryDescriptor) (root : BitVec 64)
    (k k' : KernelHeap PageFrameAllocator) : Prop where
  heap : k' = { k with machine := { k.machine with mem := k'.machine.mem } }
  tables : ∀ t, Table k.machine.mem root t → SameOn t 4096 k.machine.mem k'.machine.mem
  marked : ∀ i < reach memMap, k'.machine.marked i = k.machine.marked i

namespace OnlyWrites

variable {memMap : List EfiMemoryDescriptor} {k k' k'' : KernelHeap PageFrameAllocator}

theorem refl (k : KernelHeap PageFrameAllocator) : OnlyWrites memMap root k k :=
  ⟨rfl, fun _ _ => SameOn.refl _ _ _, fun _ _ => rfl⟩

theorem trans (h : OnlyWrites memMap root k k') (h' : OnlyWrites memMap root k' k'') :
    OnlyWrites memMap root k k'' where
  heap := by rw [h'.heap, h.heap]
  tables := fun t ht =>
    (h.tables t ht).trans (h'.tables t ((table_congr h.tables t).mpr ht))
  marked := fun i hi => (h'.marked i hi).trans (h.marked i hi)

/-- A pointer denotes what it has denoted. -/
theorem phys (h : OnlyWrites memMap root k k') (hcr3 : k.machine.cr3 = some root) (p : Addr) :
    k'.machine.phys p = k.machine.phys p := by
  refine Machine.phys_congr (congrArg (·.machine.cr3) h.heap) (fun root' hroot' => ?_) p
  obtain rfl := Option.some.inj (hcr3.symm.trans hroot')
  exact h.tables

end OnlyWrites

variable (hwf : WellFormedMap info.memMap) (hroot : IsFrame root)
  (hend : info.baseAdress.toNat + info.bufferSize.toNat + 4096 ≤ 2 ^ 48)
  (hscreen : screenFrames info ⊆ own)

include hwf hroot hend hscreen

/-- **A byte of the framebuffer** is stored as one of the kernel's own. -/
theorem MemoryInv.screen_store {k : KernelHeap PageFrameAllocator} {live : List Block}
    {frames : List (BitVec 64)} {x : Addr}
    (hinv : MemoryInv info.memMap root a own K m ⟨⟨k, live⟩, frames⟩)
    (hholds : HoldsObjects ⟨⟨k, live⟩, frames⟩ o) (hdirect : k.machine.Direct x)
    (hx : ScreenByte info x) (v : BitVec 8) :
    Returns (HeapM.store8 x v) k fun _ k' =>
      k'.machine.mem = ByteMemory.store8 k.machine.mem x v ∧ OnlyWrites info.memMap root k k' ∧
        MemoryInv info.memMap root a own K m ⟨⟨k', live⟩, frames⟩ ∧
        HoldsObjects ⟨⟨k', live⟩, frames⟩ o := by
  obtain ⟨-, hlt⟩ := screenByte_lt hend hx
  obtain ⟨-, hi⟩ := frameOf_of_lt hlt
  have hown : frameOf x ∈ own := hscreen ⟨x, hx, rfl⟩
  have hphys : k.machine.phys x = some (frameByte (frameOf x) (x - frameOf x).toNat) := by
    rw [frameByte_sub_self]
    exact hdirect
  have hrun := store8_of_phys v hdirect
  obtain ⟨hinv', hview, hsame⟩ := hinv.own_store hwf hroot hown hi hphys hrun
  have hmem : ∀ z, ¬ (z - frameOf x).toNat < 4096 →
      ByteMemory.store8 k.machine.mem x v z = k.machine.mem z := by
    intro z hz
    refine if_neg ?_
    rintro rfl
    exact hz hi
  obtain ⟨htables, hmarked⟩ := hinv.write_own hwf hroot hown hmem
  exact ⟨_, _, hrun, rfl, ⟨rfl, htables, hmarked⟩, hinv',
    ⟨hholds.blocks.live, fun b hb j hj => (hview b hb j hj).trans (hholds.blocks.bytes b hb j hj)⟩,
    hholds.frames, fun g hg j hj => (hsame g hg j hj).trans (hholds.contents g hg j hj)⟩

/-- **Memory is related to the pixels** as long as the invariant holds, the framebuffer is mapped
to itself, and the glyphs are there.  Drawing does nothing else. -/
theorem drawnInv_rendersTo (hdraws : DrawsOn info t) {live : List Block} {frames : List (BitVec 64)}
    {k₀ : KernelHeap PageFrameAllocator} (hmapped : ScreenMapped info k₀.machine)
    (hcr3 : k₀.machine.cr3 = some root)
    (hglyph : ∀ s, MemoryInv info.memMap root a own K m s → ∀ offset, InGlyphs t offset →
      s.machine.load8 (glyphBuffer + BitVec.ofInt 64 offset) = some (t.glyphBuffer offset)) :
    RendersTo t glyphBuffer fun k r =>
      DrawnInv info t root a own K m alone ⟨⟨k, live⟩, frames⟩ o r ∧
        OnlyWrites info.memMap root k₀ k where
  pixels := by
    rintro k r r' ⟨⟨hinv, hholds, hshown⟩, honly⟩ heq
    refine ⟨⟨hinv, hholds, fun halone y x hin => ?_⟩, honly⟩
    rw [heq]
    exact hshown halone y x hin
  store := by
    rintro y x c hin k r ⟨⟨hinv, hholds, hshown⟩, honly⟩
    -- the four bytes, on memory alone
    have hbytes : Follows (fun (k : KernelHeap PageFrameAllocator) m' => k.machine.mem = m' ∧
        OnlyWrites info.memMap root k₀ k ∧
          MemoryInv info.memMap root a own K m ⟨⟨k, live⟩, frames⟩ ∧
          HoldsObjects ⟨⟨k, live⟩, frames⟩ o) (HeapM.storePixel t y x c) (forRange 0 4 fun j m' =>
        ByteMemory.store8 m' (pixelPtr t y x + BitVec.ofNat 64 j) (c.extractLsb' (8 * j) 8)) := by
      refine Follows.forRange ?_
      rintro j - hj k _ ⟨rfl, honly, hinv, hholds⟩
      have hbyte := hdraws.screenByte hin hj
      refine (hinv.screen_store hwf hroot hend hscreen hholds
        ((honly.phys hcr3 _).trans (hmapped _ hbyte)) hbyte _).mono ?_
      rintro _ k' ⟨hmem, honly', h⟩
      exact ⟨hmem, honly.trans honly', h⟩
    refine (hbytes k _ ⟨rfl, honly, hinv, hholds⟩).mono ?_
    rintro _ k' ⟨hmem, honly', hinv', hholds'⟩
    rw [forRange_store8 _ _ _ (by omega)] at hmem
    refine ⟨⟨hinv', hholds', fun halone => ?_⟩, honly'⟩
    have hpixel := (hshown halone).storePixel hdraws (by omega) hin c
    rwa [store32, ← hmem] at hpixel
  glyph := fun hI hin => hglyph _ hI.1.memory _ hin

omit hend hscreen hwf hroot in
/-- The page tables of the invariant are loaded. -/
theorem MemoryInv.cr3 (hinv : MemoryInv info.memMap root a own K m s) :
    s.machine.cr3 = some root := by
  obtain ⟨n, segs, hblocks⟩ := hinv.blocks
  exact hblocks.mirrors.refines.shown.pages.identity.cr3

/-- **A key that stays inside** is drawn without a page fault, and keeps the invariant. -/
theorem DrawnInv.handleKeyboard {next c : BitVec 8} {keyboard : Keyboard} (hdraws : DrawsOn info t)
    (hglyph : ∀ s, MemoryInv info.memMap root a own K m s → ∀ offset, InGlyphs t offset →
      s.machine.load8 (glyphBuffer + BitVec.ofInt 64 offset) = some (t.glyphBuffer offset))
    (h : DrawnInv info t root a own K m alone s o keyboard.globalRenderer)
    (hmapped : ScreenMapped info s.machine) (hin : KeyInside next t keyboard c) :
    Returns (HeapM.handleKeyboard next t glyphBuffer c keyboard) s.blocks.heap fun _ k' =>
      DrawnInv info t root a own K m alone ⟨⟨k', s.blocks.live⟩, s.frames⟩ o
          (EtaOs.handleKeyboard next t c keyboard).globalRenderer ∧
        ScreenMapped info k'.machine := by
  have hcr3 := h.memory.cr3
  refine ((drawnInv_rendersTo hwf hroot hend hscreen hdraws hmapped hcr3 hglyph).handleKeyboard hin
    ⟨h, OnlyWrites.refl _⟩).mono ?_
  rintro _ k' ⟨hdrawn, honly⟩
  exact ⟨hdrawn, fun x hx => (honly.phys hcr3 x).trans (hmapped x hx)⟩

/-- **A use of memory** leaves the framebuffer, if the kernel leaves it alone. -/
theorem DrawnInv.memoryUse {s' : MemoryState} {op : MemoryOp}
    (hpages : 1 ≤ totalFrames info.memMap) (hsize : (totalMem info.memMap).toNat ≤ 2 ^ 48)
    (h : DrawnInv info t root a own K m alone s o r) {kernel : Set (BitVec 64)}
    (hsub : kernel ⊆ own) (halone : alone → ∀ f ∈ screenFrames info, f ∉ kernel)
    (hdraws : DrawsOn info t) (huse : MemoryUse info.memMap kernel ⟨root⟩ s op s')
    (hOk : AllGranted info.memMap s'.blocks) :
    ∃ o', Objects.Step o op o' ∧ DrawnInv info t root a own K m alone s' o' r := by
  obtain ⟨o', hstep, hinv', hholds'⟩ :=
    objects_step hwf hpages hsize hroot h.memory h.objects (huse.mono hsub) hOk
  obtain ⟨-, -, hkept, -⟩ := objects_step hwf hpages hsize hroot (h.memory.rebase_own hsub)
    h.objects huse hOk
  refine ⟨o', hstep, hinv', hholds', fun hal => (h.shown hal).congr hdraws fun x hx => ?_⟩
  obtain ⟨-, hlt⟩ := screenByte_lt hend hx
  obtain ⟨-, hi⟩ := frameOf_of_lt hlt
  have hf : frameOf x ∈ screenFrames info := ⟨x, hx, rfl⟩
  have hown := h.memory.ownFrames
  -- the frame is one of those that are kept, or beyond reach
  rcases hown.apart _ (hscreen hf) with hK | hfar
  · exact hkept.kept _ hK (hown.ne _ (hscreen hf)) (halone hal _ hf) x hi
  · exact hkept.far _ (isFrame_frameOf x) hfar (hown.notBitmap _ (hscreen hf)) (halone hal _ hf)
      x hi

end Drawn

/-! ## A machine with 16 megabytes -/

theorem screenFrames_sixteenMegabytes {f : BitVec 64}
    (hf : f ∈ screenFrames (sixteenMegabytes 0x100000)) :
    0xc00000 ≤ f.toNat ∧ f.toNat < 0xc01000 := by
  obtain ⟨x, hx, rfl⟩ := hf
  have hoffset : (x - 0xc00000).toNat < (0x1000 : BitVec 64).toNat := hx
  have hbounds : 0xc00000 ≤ x.toNat ∧ x.toNat < 0xc01000 := by bv_omega
  rw [frameOf_toNat (by omega)]
  omega

/-- The framebuffer at 12 MiB is in memory. -/
theorem MemoryInv.screenMapped_sixteenMegabytes {root a : BitVec 64} {own K : Set (BitVec 64)}
    {m : Mem} {s : MemoryState}
    (hinv : MemoryInv (sixteenMegabytes 0x100000).memMap root a own K m s) :
    ScreenMapped (sixteenMegabytes 0x100000) s.machine := by
  refine hinv.screenMapped (by decide) fun x hx => ?_
  have hoffset : (x - 0xc00000).toNat < (0x1000 : BitVec 64).toNat := hx
  rw [totalFrames_sixteenMegabytes (Or.inr rfl), frameIndex_eq]
  bv_omega

end EtaOs
