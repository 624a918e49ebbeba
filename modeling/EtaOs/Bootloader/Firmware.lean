import EtaOs.Bootloader.Elf
import EtaOs.Bootloader.Rsdp
import EtaOs.Library.Programs

/-!
# The firmware under the boot loader

Nothing is assumed about the firmware: it answers the calls of the boot loader one after
another with any status, and `Read` transfers as many bytes as it likes.  What a run of the
boot loader asks and does is kept as a trace.

The trace serves two purposes.  The answers are read off it in order, so that a run is determined
by the firmware; and what the run did can be stated afterwards, such as which service failed, or
that the kernel was started.

* `Firmware`: the answers, the files, and what uninitialised memory holds.
* `Uefi`, `Event`: the state of a run.
* `Efi`: a program of the boot loader.  It ends early when it dereferences NULL.
* `call`, `deref`, `read`, `setPosition`: the services with an effect of their own.
-/

namespace EtaOs

open ByteMemory Programs

namespace Bootloader

/-- `BOOT_INFO` names a `Framebuffer` by its geometry. -/
structure Framebuffer where
  baseAdress : Addr
  bufferSize : BitVec 64
  width : BitVec 32
  height : BitVec 32
  pixelsPerScanline : BitVec 32

/-- `PSF1_HEADER`. -/
structure Psf1Header where
  magic0 : BitVec 8
  magic1 : BitVec 8
  mode : BitVec 8
  charsize : BitVec 8

/-- `sizeof(PSF1_HEADER)`. -/
def psf1HeaderSize : BitVec 64 := 4

/-- The font header at the start of the bytes. -/
def Psf1Header.ofBytes (b : Buffer) : Psf1Header := ⟨b 0, b 1, b 2, b 3⟩

/-- `glyph_buffer_size`. -/
def Psf1Header.glyphBufferSize (header : Psf1Header) : BitVec 64 :=
  if header.mode = 1 then header.charsize.setWidth 64 * 512 else header.charsize.setWidth 64 * 256

theorem toNat_glyphBufferSize (header : Psf1Header) : header.glyphBufferSize.toNat =
    header.charsize.toNat * if header.mode = 1 then 512 else 256 := by
  have hlt := header.charsize.isLt
  unfold Psf1Header.glyphBufferSize
  split <;> bv_omega

/-- `PSF1_FONT`.  A pointer is `none` when it is NULL. -/
structure Psf1Font where
  psf1Header : Psf1Header
  glyphBuffer : Option Buffer

/-- `BOOT_INFO`. -/
structure BootInfo where
  framebuffer : Framebuffer
  psf1Font : Option Psf1Font
  memMap : Option Unit
  memMapSize : BitVec 64
  memMapDescriptorSize : BitVec 64
  rsdp : Addr

/-- The firmware services `efi_main` uses.  The first call of `GetInfo` and of `GetMemoryMap`
asks only for a size, which `query` says. -/
inductive Service
  | handleProtocol
  | openVolume
  | open (path : String)
  | getInfo (query : Bool)
  | allocatePool (size : BitVec 64)
  | read (size : BitVec 64)
  | setPosition (position : BitVec 64)
  | allocatePages (pages : BitVec 64) (address : Addr)
  | locateProtocol
  | getMemoryMap (query : Bool)
  | exitBootServices

/-- The answer to a call: its `EFI_STATUS`, and how many bytes a `Read` could deliver. -/
structure Reply where
  status : BitVec 64
  count : ℕ

/-- `EFI_ERROR`. -/
def Reply.error (r : Reply) : Bool := r.status.msb

/-- A pointer the call sets.  It is NULL after an error. -/
def Reply.out {α : Type} (r : Reply) (a : α) : Option α := if r.error then none else some a

/-- What `efi_main` does that can be seen from outside. -/
inductive Event
  | call (service : Service) (reply : Reply)
  | badHeader
  | kernelStart (entry : Addr) (info : BootInfo)

/-- A call failed: an error, or a `Read` that delivers too little.  Asking for a size is
answered with an error by design. -/
def Event.Failed : Event → Prop
  | .call (.read size) reply => reply.error = true ∨ reply.count < size.toNat
  | .call (.getInfo true) _ => False
  | .call (.getMemoryMap true) _ => False
  | .call _ reply => reply.error = true
  | .badHeader => True
  | .kernelStart _ _ => False

/-- What the buffers of `efi_main` are allocated for. -/
inductive PoolUse
  | fileInfo
  | programHeaders
  | fontHeader
  | glyphs
  | font
  | memoryMap

/-- The machine the boot loader runs on. -/
structure Firmware where
  /-- The answer to each call, in the order of the calls. -/
  reply : ℕ → Reply
  file : String → Buffer
  /-- What a pool buffer holds before it is written. -/
  pool : PoolUse → Buffer
  /-- What the local `header` holds before it is written. -/
  stack : Buffer
  gop : Framebuffer
  fileInfoSize : BitVec 64
  mapSize : BitVec 64
  descriptorSize : BitVec 64
  numberOfTableEntries : BitVec 64
  configurationTable : ℕ → ConfigurationTable

/-- The state of a run.  The latest event comes first. -/
structure Uefi where
  mem : Mem
  position : String → ℕ
  calls : ℕ
  trace : List Event

/-- The state in which the firmware starts the boot loader. -/
def Uefi.start (mem : Mem) : Uefi := ⟨mem, fun _ => 0, 0, []⟩

/-- Why a run ends early. -/
inductive Fault
  | nullDereference

/-- A program of the boot loader. -/
abbrev Efi := EStateM Fault Uefi

/-- The state with one more event. -/
def Uefi.log (s : Uefi) (e : Event) : Uefi := { s with trace := e :: s.trace }

/-- The state after a call. -/
def Uefi.called (s : Uefi) (service : Service) (reply : Reply) : Uefi :=
  { s with calls := s.calls + 1, trace := .call service reply :: s.trace }

/-- The state with the position of a file set. -/
def Uefi.moveTo (s : Uefi) (file : String) (position : ℕ) : Uefi :=
  { s with position := Function.update s.position file position }

/-- Use of a pointer. -/
def deref {α : Type} : Option α → Efi α
  | none => throw .nullDereference
  | some a => pure a

def log (e : Event) : Efi Unit := modify fun s => s.log e

section Services

variable (fw : Firmware)

/-- A call of a firmware service. -/
def call (service : Service) : Efi Reply := do
  let s ← get
  modify fun s => s.called service (fw.reply s.calls)
  return fw.reply s.calls

/-- `AllocatePool`. -/
def allocatePool (use : PoolUse) (size : BitVec 64) : Efi (Option Buffer) := do
  let r ← call fw (.allocatePool size)
  return r.out (fw.pool use)

/-- `SetPosition`. -/
def setPosition (file : String) (position : BitVec 64) : Efi Unit := do
  let r ← call fw (.setPosition position)
  if r.error = false then
    modify fun s => s.moveTo file position.toNat

/-- The bytes a `Read` delivers. -/
structure Transfer where
  count : ℕ
  bytes : Buffer

/-- What the next call delivers if it is a `Read`. -/
def Firmware.transfer (s : Uefi) (file : String) (size : BitVec 64) : Transfer where
  count := if (fw.reply s.calls).error then 0 else min (fw.reply s.calls).count size.toNat
  bytes k := fw.file file (s.position file + k)

/-- `Read`, before the bytes are stored. -/
def read (file : String) (size : BitVec 64) : Efi Transfer := do
  let s ← get
  let t := fw.transfer s file size
  let _ ← call fw (.read size)
  modify fun s' => s'.moveTo file (s.position file + t.count)
  return t

/-- The buffer after the bytes are stored in it. -/
def Transfer.into (t : Transfer) (b : Buffer) : Buffer := fun k =>
  if k < t.count then t.bytes k else b k

/-- The memory after the bytes are stored at `a`. -/
def Transfer.store (t : Transfer) (a : Addr) (m : Mem) : Mem := fun x =>
  if (x - a).toNat < t.count then t.bytes (x - a).toNat else m x

theorem Transfer.store_of_lt {t : Transfer} {a x : Addr} (m : Mem) (h : (x - a).toNat < t.count) :
    t.store a m x = t.bytes (x - a).toNat := if_pos h

theorem Transfer.store_of_not_lt {t : Transfer} {a x : Addr} (m : Mem)
    (h : ¬ (x - a).toNat < t.count) : t.store a m x = m x := if_neg h

end Services

/-! ## Rules for the services -/

section Rules

variable {fw : Firmware} {s : Uefi} {E : Fault → Uefi → Prop}

@[simp] theorem ends_call {service : Service} {Q : Reply → Uefi → Prop} :
    Ends (call fw service) s Q E ↔
      Q (fw.reply s.calls) (s.called service (fw.reply s.calls)) := Iff.rfl

@[simp] theorem ends_log {e : Event} {Q : Unit → Uefi → Prop} :
    Ends (log e) s Q E ↔ Q () (s.log e) := Iff.rfl

@[simp] theorem ends_allocatePool {use : PoolUse} {size : BitVec 64}
    {Q : Option Buffer → Uefi → Prop} : Ends (allocatePool fw use size) s Q E ↔
      Q ((fw.reply s.calls).out (fw.pool use))
        (s.called (.allocatePool size) (fw.reply s.calls)) := Iff.rfl

@[simp] theorem ends_read {file : String} {size : BitVec 64} {Q : Transfer → Uefi → Prop} :
    Ends (read fw file size) s Q E ↔
      Q (fw.transfer s file size) ((s.called (.read size) (fw.reply s.calls)).moveTo file
        (s.position file + (fw.transfer s file size).count)) := Iff.rfl

@[simp] theorem ends_setPosition {file : String} {position : BitVec 64} {Q : Unit → Uefi → Prop} :
    Ends (setPosition fw file position) s Q E ↔
      Q () (if (fw.reply s.calls).error = false then
        (s.called (.setPosition position) (fw.reply s.calls)).moveTo file position.toNat
      else s.called (.setPosition position) (fw.reply s.calls)) := by
  unfold setPosition
  rw [ends_bind, ends_call]
  split <;> rfl

theorem ends_deref {α : Type} {p : Option α} {Q : α → Uefi → Prop}
    (hsome : ∀ a, p = some a → Q a s) (hnone : p = none → E .nullDereference s) :
    Ends (deref p) s Q E := by
  cases p with
  | none => exact hnone rfl
  | some a => exact hsome a rfl

end Rules

end Bootloader

end EtaOs
