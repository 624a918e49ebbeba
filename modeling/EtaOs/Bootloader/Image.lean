import EtaOs.Bootloader.EfiMain

/-!
# The image the boot loader builds

When every firmware call succeeds, the loop over the program headers copies the file bytes of
every loadable segment to its place.  It never writes the tail of a segment, which keeps what
the granted pages held, and it counts headers and pages in an `int`.

An image is built when every byte that a segment has in memory is what the file says: its bytes for
the first `p_filesz`, zeros behind them.  The boot loader asks for pages and copies; that the pages
are zero is nobody's promise.  So whether the image is built depends on what the granted pages
held, and the condition says exactly how.

* `kernelHeader`, `programHeader`: the headers of the kernel file.
* `imageMem`: the memory after a number of headers; `imageMem_of_holds`: what it holds.
* `AllSucceed.loadSegments`: the loop gives this memory and asks for these pages.
* `imageBuilt_iff`: the kernel files whose image is built.
-/

namespace EtaOs

open ByteMemory Programs

namespace Bootloader

/-- Every call succeeds, and a `Read` delivers all the bytes it is asked for. -/
def AllSucceed (fw : Firmware) : Prop :=
  ∀ n, (fw.reply n).status = 0 ∧ 2 ^ 64 ≤ (fw.reply n).count

/-! ## The kernel file -/

section KernelFile

variable (fw : Firmware)

/-- The header of the kernel file. -/
def kernelHeader : Elf64Ehdr := Elf64Ehdr.ofBytes (fw.file "kernel.elf")

/-- The bytes `p_headers` points at once the table is read.  Past the table they are those of
the pool. -/
def programTable : Buffer := fun k =>
  if k < ((kernelHeader fw).tableSize.signExtend 64).toNat then
    fw.file "kernel.elf" ((kernelHeader fw).ePhoff.toNat + k)
  else fw.pool .programHeaders k

/-- Program header `i`. -/
def programHeader (i : ℕ) : Elf64Phdr :=
  Elf64Phdr.ofBytes fun k => programTable fw (i * (kernelHeader fw).ePhentsize.toNat + k)

/-- Program header `i` is that of a loadable segment. -/
def IsSegment (i : ℕ) : Prop :=
  i < (kernelHeader fw).ePhnum.toNat ∧ (programHeader fw i).pType = ptLoad

/-- The address is one of the segment's. -/
def Elf64Phdr.Holds (header : Elf64Phdr) (x : Addr) : Prop :=
  (x - header.pPaddr).toNat < header.pMemsz.toNat

/-- **Well-formed segments**: page-aligned, apart from one another, with no more bytes in the
file than in memory. -/
structure SegmentsOk : Prop where
  aligned : ∀ i, IsSegment fw i → (programHeader fw i).pPaddr.toNat % 4096 = 0
  apart : ∀ i j, IsSegment fw i → IsSegment fw j → i ≠ j → ∀ x,
    (programHeader fw i).Holds x → ¬ (programHeader fw j).Holds x
  filesz_le : ∀ i, IsSegment fw i →
    (programHeader fw i).pFilesz.toNat ≤ (programHeader fw i).pMemsz.toNat

/-- In a file whose entries have their full size, header `i` is entry `i` of the file. -/
theorem programHeader_eq_ofBytes {i : ℕ} (hi : i < (kernelHeader fw).ePhnum.toNat)
    (hsize : 56 ≤ (kernelHeader fw).ePhentsize.toNat)
    (htable : (kernelHeader fw).ePhnum.toNat * (kernelHeader fw).ePhentsize.toNat < 2 ^ 31) :
    programHeader fw i = Elf64Phdr.ofBytes fun k => fw.file "kernel.elf"
      ((kernelHeader fw).ePhoff.toNat + i * (kernelHeader fw).ePhentsize.toNat + k) := by
  have hlt : i * (kernelHeader fw).ePhentsize.toNat + (kernelHeader fw).ePhentsize.toNat ≤
      (kernelHeader fw).ePhnum.toNat * (kernelHeader fw).ePhentsize.toNat := by
    rw [← Nat.succ_mul]
    exact Nat.mul_le_mul_right _ hi
  have hnat := toNat_tableSize (kernelHeader fw)
  refine Elf64Phdr.ofBytes_congr fun k hk => ?_
  unfold programTable
  rw [IntLoop.signExtend_of_lt (by omega), if_pos (by omega), Nat.add_assoc]

/-- The bytes the file gives for segment `i`. -/
def segmentBytes (header : Elf64Phdr) : Transfer where
  count := header.pFilesz.toNat
  bytes k := fw.file "kernel.elf" (header.pOffset.toNat + k)

/-- The memory after the first headers have been loaded. -/
def imageMem (mem : Mem) : ℕ → Mem
  | 0 => mem
  | i + 1 =>
      if (programHeader fw i).pType = ptLoad then
        (segmentBytes fw (programHeader fw i)).store (programHeader fw i).pPaddr (imageMem mem i)
      else imageMem mem i

/-- How many headers the loop visits: all of them, or none when the size of the table is
negative as an `int` or the entries have no size. -/
def loadedHeaders : ℕ :=
  if 0 < (kernelHeader fw).ePhentsize.toNat ∧
      (kernelHeader fw).ePhnum.toNat * (kernelHeader fw).ePhentsize.toNat < 2 ^ 31 then
    (kernelHeader fw).ePhnum.toNat
  else 0

/-- A segment's bytes after the first `i` headers: those of the file where the segment has been
loaded, and what was there before everywhere else. -/
theorem imageMem_of_holds {fw : Firmware} (hok : SegmentsOk fw) (mem : Mem) {j : ℕ}
    (hj : IsSegment fw j) {x : Addr} (hx : (programHeader fw j).Holds x) :
    ∀ i ≤ (kernelHeader fw).ePhnum.toNat, imageMem fw mem i x =
      if j < i ∧ (x - (programHeader fw j).pPaddr).toNat < (programHeader fw j).pFilesz.toNat then
        (segmentBytes fw (programHeader fw j)).bytes (x - (programHeader fw j).pPaddr).toNat
      else mem x := by
  intro i hi
  induction i with
  | zero => rw [imageMem, if_neg fun h => Nat.not_lt_zero j h.1]
  | succ i ih =>
      rw [imageMem]
      rcases eq_or_ne j i with rfl | hne
      · -- header `i` is the segment's own
        rw [if_pos hj.2]
        by_cases hfile : (x - (programHeader fw j).pPaddr).toNat <
            (programHeader fw j).pFilesz.toNat
        · rw [Transfer.store_of_lt _ hfile, if_pos ⟨Nat.lt_succ_self j, hfile⟩]
        · rw [Transfer.store_of_not_lt _ hfile, ih (by omega), if_neg fun h => hfile h.2,
            if_neg fun h => hfile h.2]
      · have hkeep : (if (programHeader fw i).pType = ptLoad then
            (segmentBytes fw (programHeader fw i)).store (programHeader fw i).pPaddr
              (imageMem fw mem i)
            else imageMem fw mem i) x = imageMem fw mem i x := by
          split
          next hload =>
            -- another segment's bytes are elsewhere
            have hi' : IsSegment fw i := ⟨by omega, hload⟩
            refine Transfer.store_of_not_lt _ fun h => hok.apart j i hj hi' hne x hx ?_
            exact Nat.lt_of_lt_of_le h (hok.filesz_le i hi')
          next => rfl
        rw [hkeep, ih (by omega)]
        have hiff : j < i + 1 ↔ j < i := by omega
        simp only [hiff]

end KernelFile

/-! ## Granted pages -/

/-- The firmware granted this many pages at the address. -/
def Granted (s : Uefi) (pages : BitVec 64) (a : Addr) : Prop :=
  ∃ r : Reply, r.error = false ∧ Event.call (.allocatePages pages a) r ∈ s.trace

theorem granted_called {s : Uefi} {service : Service} {r : Reply} {pages : BitVec 64} {a : Addr} :
    Granted (s.called service r) pages a ↔
      (service = .allocatePages pages a ∧ r.error = false) ∨ Granted s pages a := by
  constructor
  · rintro ⟨r', herr, hmem⟩
    rcases List.mem_cons.mp hmem with heq | hmem
    · obtain ⟨rfl, rfl⟩ := Event.call.inj heq
      exact Or.inl ⟨rfl, herr⟩
    · exact Or.inr ⟨r', herr, hmem⟩
  · rintro (⟨rfl, herr⟩ | ⟨r', herr, hmem⟩)
    · exact ⟨r, herr, List.mem_cons_self⟩
    · exact ⟨r', herr, List.mem_cons_of_mem _ hmem⟩

theorem granted_moveTo {s : Uefi} {file : String} {position : ℕ} {pages : BitVec 64} {a : Addr} :
    Granted (s.moveTo file position) pages a ↔ Granted s pages a := Iff.rfl

theorem granted_store {s : Uefi} {m : Mem} {pages : BitVec 64} {a : Addr} :
    Granted { s with mem := m } pages a ↔ Granted s pages a := Iff.rfl

/-- The call is one of `AllocatePages`. -/
def Service.grants : Service → Bool
  | .allocatePages _ _ => true
  | _ => false

/-- Neither the memory nor the granted pages have changed. -/
structure Quiet (s t : Uefi) : Prop where
  mem : t.mem = s.mem
  granted : ∀ pages a, Granted t pages a ↔ Granted s pages a

namespace Quiet

variable {s t : Uefi}

theorem refl (s : Uefi) : Quiet s s := ⟨rfl, fun _ _ => Iff.rfl⟩

theorem trans {r : Uefi} (h : Quiet r s) (h' : Quiet s t) : Quiet r t :=
  ⟨h'.mem.trans h.mem, fun p a => (h'.granted p a).trans (h.granted p a)⟩

theorem called {service : Service} {r : Reply} (h : Quiet s t)
    (hservice : service.grants = false) : Quiet s (t.called service r) := by
  refine ⟨h.mem, fun p a => ?_⟩
  rw [granted_called, h.granted]
  refine or_iff_right ?_
  rintro ⟨rfl, -⟩
  exact Bool.noConfusion hservice

theorem moveTo (h : Quiet s t) (file : String) (position : ℕ) :
    Quiet s (t.moveTo file position) := ⟨h.mem, h.granted⟩

theorem log {e : Event} (h : Quiet s t) (he : ∀ service r, e ≠ .call service r) :
    Quiet s (t.log e) := by
  refine ⟨h.mem, fun p a => ?_⟩
  rw [← h.granted]
  constructor
  · rintro ⟨r, herr, hmem⟩
    rcases List.mem_cons.mp hmem with heq | hmem
    · exact absurd heq.symm (he _ _)
    · exact ⟨r, herr, hmem⟩
  · rintro ⟨r, herr, hmem⟩
    exact ⟨r, herr, List.mem_cons_of_mem _ hmem⟩

end Quiet

/-- The state once the first `i` headers have been loaded. -/
structure LoadedUpTo (fw : Firmware) (mem : Mem) (i : ℕ) (s : Uefi) : Prop where
  mem : s.mem = imageMem fw mem i
  granted : ∀ pages a, Granted s pages a ↔ ∃ j < i, (programHeader fw j).pType = ptLoad ∧
    pages = (programHeader fw j).pages.signExtend 64 ∧ a = (programHeader fw j).pPaddr

theorem LoadedUpTo.quiet {fw : Firmware} {mem : Mem} {i : ℕ} {s t : Uefi}
    (h : LoadedUpTo fw mem i s)
    (hq : Quiet s t) : LoadedUpTo fw mem i t :=
  ⟨hq.mem.trans h.mem, fun p a => (hq.granted p a).trans (h.granted p a)⟩

/-! ## When every call succeeds -/

namespace AllSucceed

variable {fw : Firmware} {s : Uefi} {E : Fault → Uefi → Prop}

theorem error (h : AllSucceed fw) (n : ℕ) : (fw.reply n).error = false := by
  unfold Reply.error
  rw [(h n).1]
  rfl

theorem out (h : AllSucceed fw) (n : ℕ) {α : Type} (a : α) : (fw.reply n).out a = some a := by
  unfold Reply.out
  rw [h.error n]
  rfl

/-- A `Read` delivers the bytes of the file from its position on. -/
theorem transfer (h : AllSucceed fw) (file : String) (size : BitVec 64) :
    fw.transfer s file size = ⟨size.toNat, fun k => fw.file file (s.position file + k)⟩ := by
  have hsize := size.isLt
  have hcount := (h s.calls).2
  unfold Firmware.transfer
  rw [h.error, if_neg Bool.false_ne_true, Nat.min_eq_right (by omega)]

theorem loadFile (h : AllSucceed fw) (path : String) : Ends (loadFile fw none path) s
    (fun p t => p = some path ∧ t.position path = 0 ∧ Quiet s t) E := by
  unfold Bootloader.loadFile orVolume
  simp only [ends_bind, ends_call, h.out, deref, ends_pure, (h _).1, ne_eq, not_true_eq_false,
    if_false, ends_modify]
  refine ⟨trivial, Function.update_self .., ?_⟩
  exact ((((Quiet.refl s).called rfl).called rfl).called rfl).called rfl |>.moveTo _ _

/-- The header that is read is the kernel file's. -/
theorem readHeader (h : AllSucceed fw) (hpos : s.position "kernel.elf" = 0) :
    Ends (readHeader fw "kernel.elf") s
      (fun header t => header = kernelHeader fw ∧ Quiet s t) E := by
  unfold Bootloader.readHeader
  simp only [ends_bind, ends_call, ends_allocatePool, ends_read, ends_pure, h.transfer]
  constructor
  · refine Elf64Ehdr.ofBytes_congr fun k hk => ?_
    have hbyte : (s.position "kernel.elf" + k) = k := by omega
    exact (if_pos hk).trans (congrArg (fw.file "kernel.elf") hbyte)
  · exact ((((Quiet.refl s).called rfl).called rfl).called rfl).called rfl |>.moveTo _ _

theorem checkHeader (header : Elf64Ehdr) :
    Ends (checkHeader header) s (fun _ t => Quiet s t) E := by
  unfold Bootloader.checkHeader
  split
  · exact (Quiet.refl s).log nofun
  · exact Quiet.refl s

/-- The table that is read is the kernel file's. -/
theorem readProgramHeaders (h : AllSucceed fw) :
    Ends (readProgramHeaders fw "kernel.elf" (kernelHeader fw)) s
      (fun p t => p = some (programTable fw) ∧ Quiet s t) E := by
  unfold Bootloader.readProgramHeaders
  simp only [ends_bind, ends_setPosition, ends_allocatePool, ends_read, ends_pure, h.transfer,
    h.error, if_true, h.out]
  constructor
  · refine congrArg some (funext fun k => ?_)
    unfold Transfer.into programTable
    simp only [Uefi.called, Uefi.moveTo, Function.update_self]
  · exact ((((Quiet.refl s).called rfl).moveTo _ _).called rfl).called rfl |>.moveTo _ _

theorem loadPsf1Font (h : AllSucceed fw) (path : String) :
    Ends (loadPsf1Font fw none path) s (fun _ t => Quiet s t) E := by
  unfold Bootloader.loadPsf1Font
  refine (h.loadFile path).bind ?_
  rintro p t ⟨rfl, -, ht⟩
  simp only [ends_bind, ends_allocatePool, ends_read, h.out, deref, ends_pure]
  split
  · exact ((ht.called rfl).called rfl).moveTo _ _
  · simp only [ends_bind, ends_setPosition, ends_allocatePool, ends_read, h.out, ends_pure,
      h.error, if_true]
    exact (((((ht.called rfl).called rfl).moveTo _ _).called rfl).moveTo _ _).called rfl
      |>.called rfl |>.moveTo _ _ |>.called rfl

theorem initGop (h : AllSucceed fw) :
    Ends (initGop fw) s (fun p t => p = some fw.gop ∧ Quiet s t) E := by
  unfold Bootloader.initGop
  rw [ends_bind, ends_call, h.error]
  exact ⟨rfl, (Quiet.refl s).called rfl⟩

/-- **One segment**: its pages are granted and its bytes copied. -/
theorem loadSegment (h : AllSucceed fw) (header : Elf64Phdr) :
    Ends (loadSegment fw "kernel.elf" header) s (fun _ t =>
      t.mem = (segmentBytes fw header).store header.pPaddr s.mem ∧
      ∀ pages a, Granted t pages a ↔
        (pages = header.pages.signExtend 64 ∧ a = header.pPaddr) ∨ Granted s pages a) E := by
  unfold Bootloader.loadSegment
  simp only [ends_bind, ends_call, ends_setPosition, ends_read, ends_modify, h.error, if_true,
    h.transfer]
  constructor
  · unfold segmentBytes
    simp only [Uefi.called, Uefi.moveTo, Function.update_self]
  · intro pages a
    rw [granted_store, granted_moveTo, granted_called, granted_moveTo, granted_called,
      granted_called]
    simp only [reduceCtorEq, false_or, Service.allocatePages.injEq, h.error, and_true,
      eq_comm]

/-- **The loop over the program headers.** -/
theorem loadSegments (h : AllSucceed fw) (mem : Mem)
    (hsize : 0 < (kernelHeader fw).ePhentsize.toNat)
    (htable : (kernelHeader fw).ePhnum.toNat * (kernelHeader fw).ePhentsize.toNat < 2 ^ 31)
    (fuel : ℕ) : ∀ (i : ℕ) (s : Uefi), i + fuel = (kernelHeader fw).ePhnum.toNat →
      LoadedUpTo fw mem i s →
      Ends (loadSegments fw "kernel.elf" (kernelHeader fw) (some (programTable fw)) fuel
        (i * (kernelHeader fw).ePhentsize.toNat)) s
        (fun _ t => LoadedUpTo fw mem (kernelHeader fw).ePhnum.toNat t) E := by
  induction fuel with
  | zero =>
      intro i s hi hs
      obtain rfl : i = _ := hi
      exact hs
  | succ fuel ih =>
      intro i s hi hs
      have hnat := toNat_tableSize (kernelHeader fw)
      have hlt : i * (kernelHeader fw).ePhentsize.toNat <
          (kernelHeader fw).ePhnum.toNat * (kernelHeader fw).ePhentsize.toNat :=
        Nat.mul_lt_mul_of_pos_right (by omega) hsize
      have hcond : ((i * (kernelHeader fw).ePhentsize.toNat : ℕ) : ℤ) <
          (kernelHeader fw).tableSize.toInt := by
        rw [BitVec.toInt_eq_toNat_of_lt (by omega), hnat]
        exact_mod_cast hlt
      unfold Bootloader.loadSegments
      rw [if_pos hcond, ends_bind]
      simp only [deref, ends_pure]
      have hnext : (i + 1) * (kernelHeader fw).ePhentsize.toNat =
          i * (kernelHeader fw).ePhentsize.toNat + (kernelHeader fw).ePhentsize.toNat :=
        Nat.succ_mul _ _
      rw [← hnext]
      show Ends (if (programHeader fw i).pType = ptLoad then _ else _) s _ E
      split
      next hload =>
        refine (h.loadSegment (programHeader fw i)).bind fun _ t ht => ih (i + 1) t (by omega) ?_
        refine ⟨?_, fun p a => ?_⟩
        · rw [ht.1, hs.mem, imageMem, if_pos hload]
        · rw [ht.2, hs.granted, Nat.exists_lt_succ_right, or_comm]
          exact or_congr_right (and_iff_right hload).symm
      next hload =>
        refine ih (i + 1) s (by omega) ⟨?_, fun p a => ?_⟩
        · rw [hs.mem, imageMem, if_neg hload]
        · rw [hs.granted, Nat.exists_lt_succ_right]
          exact (or_iff_left fun hc => hload hc.1).symm

/-- When the size of the table is not positive as an `int`, the loop does nothing. -/
theorem loadSegments_of_not (header : Elf64Ehdr) (pHeaders : Option Buffer)
    (hsize : ¬ (0 < header.ePhentsize.toNat ∧
      header.ePhnum.toNat * header.ePhentsize.toNat < 2 ^ 31)) (fuel : ℕ) :
    Ends (Bootloader.loadSegments fw "kernel.elf" header pHeaders fuel 0) s
      (fun _ t => t = s) E := by
  have hcond : ¬ ((0 : ℕ) : ℤ) < header.tableSize.toInt := by
    have hnat := toNat_tableSize header
    rw [BitVec.toInt_eq_toNat_cond]
    rcases Nat.eq_zero_or_pos header.ePhentsize.toNat with h0 | h0
    · rw [h0, Nat.mul_zero] at hnat
      rw [hnat]
      decide
    · have hlt := header.tableSize.isLt
      split <;> omega
  cases fuel with
  | zero => exact rfl
  | succ fuel =>
      unfold Bootloader.loadSegments
      rw [if_neg hcond]
      exact rfl

/-- **Loading the kernel** visits `loadedHeaders` headers. -/
theorem loadKernel (h : AllSucceed fw) (hgrant : ∀ pages a, ¬ Granted s pages a) :
    Ends (loadKernel fw) s (fun header t => header = kernelHeader fw ∧
      LoadedUpTo fw s.mem (loadedHeaders fw) t) E := by
  unfold Bootloader.loadKernel
  refine (h.loadFile "kernel.elf").bind ?_
  rintro _ t₁ ⟨rfl, hpos, h₁⟩
  simp only [deref, pure_bind]
  refine (h.readHeader hpos).bind ?_
  rintro _ t₂ ⟨rfl, h₂⟩
  refine (checkHeader (kernelHeader fw)).bind fun _ t₃ h₃ => ?_
  refine h.readProgramHeaders.bind ?_
  rintro _ t₄ ⟨rfl, h₄⟩
  have h0 : LoadedUpTo fw s.mem 0 s := by
    refine ⟨rfl, fun p a => iff_of_false (hgrant p a) ?_⟩
    rintro ⟨j, hj, -⟩
    exact Nat.not_lt_zero j hj
  have hstart := h0.quiet (((h₁.trans h₂).trans h₃).trans h₄)
  unfold loadedHeaders
  split
  next hsize =>
    have hloop := h.loadSegments (E := E) s.mem hsize.1 hsize.2 _ 0 t₄ (Nat.zero_add _) hstart
    rw [Nat.zero_mul] at hloop
    exact hloop.bind fun _ t ht => ⟨rfl, ht⟩
  next hsize =>
    refine (loadSegments_of_not _ _ hsize _).bind ?_
    rintro _ t rfl
    exact ⟨rfl, hstart⟩

/-- **The boot** reaches the kernel's entry point with `loadedHeaders` headers loaded. -/
theorem efiMain (h : AllSucceed fw) (hgrant : ∀ pages a, ¬ Granted s pages a) :
    Ends (efiMain fw) s (fun _ t => LoadedUpTo fw s.mem (loadedHeaders fw) t ∧
      ∃ info, t.trace.head? = some (.kernelStart (kernelHeader fw).eEntry info)) E := by
  unfold Bootloader.efiMain
  refine (h.loadKernel hgrant).bind ?_
  rintro _ t₁ ⟨rfl, h₁⟩
  refine (h.loadPsf1Font "zap-light16.psf").bind fun newFont t₂ h₂ => ?_
  refine h.initGop.bind ?_
  rintro _ t₃ ⟨rfl, h₃⟩
  simp only [deref, pure_bind, ends_bind, ends_call, ends_allocatePool, ends_get, ends_log,
    ends_pure]
  refine ⟨(h₁.quiet (h₂.trans h₃)).quiet ?_, ⟨_, rfl⟩⟩
  refine ((((Quiet.refl t₃).called rfl).called rfl).called rfl).called rfl |>.log ?_
  exact fun _ _ heq => Event.noConfusion heq

end AllSucceed

/-! ## The image -/

/-- **The image is built**: every loadable segment has its pages, its bytes of the file and a
zero tail. -/
structure ImageBuilt (fw : Firmware) (t : Uefi) : Prop where
  covered : ∀ i, IsSegment fw i → ∀ k < (programHeader fw i).pMemsz.toNat, ∃ pages,
    Granted t pages (programHeader fw i).pPaddr ∧ k < 4096 * pages.toNat
  file : ∀ i, IsSegment fw i → ∀ k < (programHeader fw i).pFilesz.toNat,
    t.mem ((programHeader fw i).pPaddr + BitVec.ofNat 64 k) =
      fw.file "kernel.elf" ((programHeader fw i).pOffset.toNat + k)
  tail : ∀ i, IsSegment fw i → ∀ k, (programHeader fw i).pFilesz.toNat ≤ k →
    k < (programHeader fw i).pMemsz.toNat →
    t.mem ((programHeader fw i).pPaddr + BitVec.ofNat 64 k) = 0

/-- **A segment the loop builds**, over memory that holds `mem`: the size of the table is
positive as an `int`, so is the number of pages up to the sign extension, and the tail is zero
already. -/
structure Builds (fw : Firmware) (mem : Mem) (header : Elf64Phdr) : Prop where
  table : 0 < (kernelHeader fw).ePhentsize.toNat ∧
    (kernelHeader fw).ePhnum.toNat * (kernelHeader fw).ePhentsize.toNat < 2 ^ 31
  pages : header.pMemsz.toNat ≤ 2 ^ 64 - 4096 ∧
    ((header.pMemsz.toNat + 4095) / 4096 < 2 ^ 31 ∨
      2 ^ 31 ≤ (header.pMemsz.toNat + 4095) / 4096 % 2 ^ 32)
  tail : ∀ k, header.pFilesz.toNat ≤ k → k < header.pMemsz.toNat →
    mem (header.pPaddr + BitVec.ofNat 64 k) = 0

section Image

variable {fw : Firmware} {mem : Mem} {t : Uefi}

theorem Elf64Phdr.holds_add {header : Elf64Phdr} {k : ℕ} (hk : k < header.pMemsz.toNat) :
    (header.pPaddr + BitVec.ofNat 64 k - header.pPaddr).toNat = k := by
  have hlt := header.pMemsz.isLt
  bv_omega

/-- A segment of no bytes asks for no pages. -/
theorem pages_eq_zero {header : Elf64Phdr} (h : header.pMemsz.toNat = 0) :
    (header.pages.signExtend 64).toNat = 0 := by
  have hpages := toNat_pages header
  rw [h] at hpages
  have h0 : header.pages.toNat = 0 := hpages
  rw [IntLoop.signExtend_of_lt (by omega), h0]

/-- Pages granted at a segment's address were granted for it. -/
theorem LoadedUpTo.of_granted (hok : SegmentsOk fw) {n i : ℕ}
    (hn : n ≤ (kernelHeader fw).ePhnum.toNat) (h : LoadedUpTo fw mem n t) (hi : IsSegment fw i)
    {pages : BitVec 64} (hgrant : Granted t pages (programHeader fw i).pPaddr)
    (hpages : 0 < pages.toNat) (hmem : 0 < (programHeader fw i).pMemsz.toNat) :
    i < n ∧ pages = (programHeader fw i).pages.signExtend 64 := by
  obtain ⟨j, hj, hload, hp, haddr⟩ := (h.granted _ _).mp hgrant
  have hj' : IsSegment fw j := ⟨by omega, hload⟩
  have hself : ∀ header : Elf64Phdr, 0 < header.pMemsz.toNat → header.Holds header.pPaddr := by
    intro header hpos
    unfold Elf64Phdr.Holds
    rwa [BitVec.sub_self]
  have hjmem : 0 < (programHeader fw j).pMemsz.toNat := by
    rcases Nat.eq_zero_or_pos (programHeader fw j).pMemsz.toNat with h0 | h0
    · rw [hp, pages_eq_zero h0] at hpages
      exact absurd hpages (Nat.lt_irrefl 0)
    · exact h0
  have hij : i = j := by
    by_contra hne
    refine hok.apart i j hi hj' hne _ (hself _ hmem) ?_
    rw [haddr]
    exact hself _ hjmem
  rw [hij]
  exact ⟨hj, hp⟩

theorem loadedHeaders_le (fw : Firmware) : loadedHeaders fw ≤ (kernelHeader fw).ePhnum.toNat := by
  unfold loadedHeaders
  split <;> omega

theorem imageBuilt_of_loaded (hok : SegmentsOk fw) (h : LoadedUpTo fw mem (loadedHeaders fw) t) :
    ImageBuilt fw t ↔ ∀ i, IsSegment fw i → 0 < (programHeader fw i).pMemsz.toNat →
      Builds fw mem (programHeader fw i) := by
  have hn := loadedHeaders_le fw
  have hmem : ∀ i, IsSegment fw i → ∀ k < (programHeader fw i).pMemsz.toNat,
      t.mem ((programHeader fw i).pPaddr + BitVec.ofNat 64 k) =
        if i < loadedHeaders fw ∧ k < (programHeader fw i).pFilesz.toNat then
          fw.file "kernel.elf" ((programHeader fw i).pOffset.toNat + k)
        else mem ((programHeader fw i).pPaddr + BitVec.ofNat 64 k) := by
    intro i hi k hk
    have hoff := Elf64Phdr.holds_add hk
    have hholds : (programHeader fw i).Holds ((programHeader fw i).pPaddr + BitVec.ofNat 64 k) := by
      unfold Elf64Phdr.Holds
      rwa [hoff]
    rw [h.mem, imageMem_of_holds hok mem hi hholds _ hn, hoff]
    rfl
  constructor
  · intro himage i hi hpos
    obtain ⟨pages, hgrant, hlt⟩ := himage.covered i hi ((programHeader fw i).pMemsz.toNat - 1)
      (by omega)
    obtain ⟨hin, rfl⟩ := h.of_granted hok hn hi hgrant (by omega) hpos
    refine ⟨?_, (pMemsz_le_pages_iff _).mp (by omega), fun k hle hk => ?_⟩
    · by_contra hsize
      rw [loadedHeaders, if_neg hsize] at hin
      exact Nat.not_lt_zero i hin
    · have htail := himage.tail i hi k hle hk
      rwa [hmem i hi k hk, if_neg fun hc => absurd hc.2 (Nat.not_lt.mpr hle)] at htail
  · intro hbuilds
    refine ⟨fun i hi k hk => ?_, fun i hi k hk => ?_, fun i hi k hle hk => ?_⟩
    · have hb := hbuilds i hi (by omega)
      refine ⟨_, (h.granted _ _).mpr ⟨i, ?_, hi.2, rfl, rfl⟩, ?_⟩
      · rw [loadedHeaders, if_pos hb.table]
        exact hi.1
      · have hle := (pMemsz_le_pages_iff _).mpr hb.pages
        omega
    · have hk' := Nat.lt_of_lt_of_le hk (hok.filesz_le i hi)
      have hb := hbuilds i hi (by omega)
      rw [hmem i hi k hk', if_pos]
      rw [loadedHeaders, if_pos hb.table]
      exact ⟨hi.1, hk⟩
    · rw [hmem i hi k hk, if_neg fun hc => absurd hc.2 (Nat.not_lt.mpr hle)]
      exact (hbuilds i hi (by omega)).tail k hle hk

/-- The run, when every call succeeds. -/
theorem exists_loaded (hcalls : AllSucceed fw) (mem : Mem) :
    ∃ status t info, efiMain fw (Uefi.start mem) = .ok status t ∧
      t.trace.head? = some (.kernelStart (kernelHeader fw).eEntry info) ∧
      LoadedUpTo fw mem (loadedHeaders fw) t := by
  have hgrant : ∀ pages a, ¬ Granted (Uefi.start mem) pages a := by
    rintro pages a ⟨r, -, hmem⟩
    exact absurd hmem List.not_mem_nil
  have hends := hcalls.efiMain (E := fun _ _ => False) hgrant
  unfold Ends at hends
  rcases hr : efiMain fw (Uefi.start mem) with ⟨status, t⟩ | ⟨e, t⟩
  · rw [hr] at hends
    obtain ⟨hloaded, info, hhead⟩ := hends
    exact ⟨status, t, info, rfl, hhead, hloaded⟩
  · rw [hr] at hends
    exact hends.elim

/-- **The kernel files whose image is built**: the kernel is started, and its image is there
exactly when the loop builds every segment that has bytes. -/
theorem imageBuilt_iff (fw : Firmware) (mem : Mem) (hcalls : AllSucceed fw) (hok : SegmentsOk fw) :
    ∃ status t info, efiMain fw (Uefi.start mem) = .ok status t ∧
      t.trace.head? = some (.kernelStart (kernelHeader fw).eEntry info) ∧
      (ImageBuilt fw t ↔ ∀ i, IsSegment fw i → 0 < (programHeader fw i).pMemsz.toNat →
        Builds fw mem (programHeader fw i)) := by
  obtain ⟨status, t, info, hrun, hhead, hloaded⟩ := exists_loaded hcalls mem
  exact ⟨status, t, info, hrun, hhead, imageBuilt_of_loaded hok hloaded⟩

end Image

/-! ## A kernel of one segment -/

/-- An ELF file with one segment of a page at 1 MiB, 16 bytes of it in the file. -/
def onePageElf : Buffer
  | 0 => 0x7f
  | 1 => 0x45
  | 2 => 0x4c
  | 3 => 0x46
  | 4 => 2
  | 5 => 1
  | 16 => 2
  | 18 => 62
  | 20 => 1
  | 26 => 0x10
  | 32 => 64
  | 54 => 56
  | 56 => 1
  | 64 => 1
  | 90 => 0x10
  | 96 => 16
  | 105 => 0x10
  | _ => 0

/-- A firmware that offers this kernel and on which every call succeeds. -/
def onePage : Firmware where
  reply _ := ⟨0, 2 ^ 64⟩
  file _ := onePageElf
  pool _ _ := 0
  stack _ := 0
  gop := ⟨0, 0, 0, 0, 0⟩
  fileInfoSize := 0
  mapSize := 0
  descriptorSize := 0
  numberOfTableEntries := 0
  configurationTable _ := ⟨acpi20TableGuid, 0⟩

theorem allSucceed_onePage : AllSucceed onePage := fun _ => ⟨rfl, Nat.le_refl _⟩

theorem isSegment_onePage {i : ℕ} (h : IsSegment onePage i) : i = 0 := by
  have hnum : (kernelHeader onePage).ePhnum.toNat = 1 := by decide
  have hlt := h.1
  omega

theorem segmentsOk_onePage : SegmentsOk onePage := by
  refine ⟨fun i hi => ?_, fun i j hi hj hne => ?_, fun i hi => ?_⟩
  · obtain rfl := isSegment_onePage hi
    decide
  · exact absurd ((isSegment_onePage hi).trans (isSegment_onePage hj).symm) hne
  · obtain rfl := isSegment_onePage hi
    decide

/-- Over zeroed memory the image is built. -/
theorem imageBuilt_onePage :
    ∃ status t, efiMain onePage (Uefi.start fun _ => 0) = .ok status t ∧ ImageBuilt onePage t := by
  obtain ⟨status, t, -, hrun, -, hiff⟩ :=
    imageBuilt_iff onePage (fun _ => 0) allSucceed_onePage segmentsOk_onePage
  refine ⟨status, t, hrun, hiff.mpr fun i hi hpos => ?_⟩
  obtain rfl := isSegment_onePage hi
  exact ⟨by decide, by decide, fun _ _ _ => rfl⟩

/-- Over memory that holds anything else the tail of the segment keeps it. -/
theorem not_imageBuilt_onePage :
    headerBad (kernelHeader onePage) = false ∧ AllSucceed onePage ∧ SegmentsOk onePage ∧
      ∃ status t info, efiMain onePage (Uefi.start fun _ => 0xff) = .ok status t ∧
        t.trace.head? = some (.kernelStart (kernelHeader onePage).eEntry info) ∧
        ¬ ImageBuilt onePage t := by
  refine ⟨by decide, allSucceed_onePage, segmentsOk_onePage, ?_⟩
  obtain ⟨status, t, info, hrun, hhead, hloaded⟩ :=
    exists_loaded allSucceed_onePage fun _ => 0xff
  refine ⟨status, t, info, hrun, hhead, fun himage => ?_⟩
  have hseg : IsSegment onePage 0 := ⟨by decide, by decide⟩
  have hbuilds := (imageBuilt_of_loaded segmentsOk_onePage hloaded).mp himage 0 hseg (by decide)
  exact absurd (hbuilds.tail 16 (by decide) (by decide)) (by decide)

end Bootloader

end EtaOs
