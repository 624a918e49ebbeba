import EtaOs.Bootloader.Firmware

/-!
# The boot loader

`efi_main` and the functions it calls, statement by statement.  A failed call is only
printed, if it is looked at, and the boot goes on with what the call left behind.

The program is written in the order of the source, with the helpers where it calls them, since what
goes wrong in it is a matter of order: a pointer is used before the status of the call that was to
fill it is looked at, and a file is read into a buffer whose size an earlier call should have
given.

* `loadFile`, `loadPsf1Font`, `initGop`: the helpers, which answer NULL on some failures.
* `readHeader`, `checkHeader`, `readProgramHeaders`: the parts of `efi_main` before the loop.
* `loadSegment`, `loadSegments`: the loop over the program headers.
* `efiMain`: the boot.
-/

namespace EtaOs

open ByteMemory

namespace Bootloader

section

variable (fw : Firmware)

/-- The lines of `load_file` that replace a NULL directory by the root of the volume. -/
def orVolume (directory fileSystem : Option Unit) : Efi (Option Unit) :=
  match directory with
  | some d => pure (some d)
  | none => do
    deref fileSystem
    let r ← call fw .openVolume
    return r.out ()

/-- `load_file`.  The file is named by its path. -/
def loadFile (directory : Option Unit) (path : String) : Efi (Option String) := do
  let r ← call fw .handleProtocol
  let loadedImage := r.out ()
  deref loadedImage
  let r ← call fw .handleProtocol
  let fileSystem := r.out ()
  let directory ← orVolume fw directory fileSystem
  deref directory
  let r ← call fw (.open path)
  if r.status ≠ 0 then
    return none
  else
    modify fun s => s.moveTo path 0
    return some path

/-- `load_psf1_font`. -/
def loadPsf1Font (directory : Option Unit) (path : String) : Efi (Option Psf1Font) := do
  match ← loadFile fw directory path with
  | none => return none
  | some font => do
    let fontHeader ← allocatePool fw .fontHeader psf1HeaderSize
    let t ← read fw font psf1HeaderSize
    let b ← deref fontHeader
    let header := Psf1Header.ofBytes (t.into b)
    if header.magic0 ≠ 0x36 ∨ header.magic1 ≠ 0x04 then
      return none
    else
      setPosition fw font psf1HeaderSize
      let glyphBuffer ← allocatePool fw .glyphs header.glyphBufferSize
      let t ← read fw font header.glyphBufferSize
      let glyphBuffer := glyphBuffer.map t.into
      let finalFont ← allocatePool fw .font 16
      let _ ← deref finalFont
      return some ⟨header, glyphBuffer⟩

/-- `init_gop`. -/
def initGop : Efi (Option Framebuffer) := do
  let r ← call fw .locateProtocol
  if r.error then
    return none
  else
    return some fw.gop

/-- The case `PT_LOAD` of the loop.  The pages are asked for at the segment's own address. -/
def loadSegment (kernel : String) (header : Elf64Phdr) : Efi Unit := do
  let _ ← call fw (.allocatePages (header.pages.signExtend 64) header.pPaddr)
  setPosition fw kernel header.pOffset
  let t ← read fw kernel header.pFilesz
  modify fun s => { s with mem := t.store header.pPaddr s.mem }

/-- The loop over the program headers, from the header at `offset` on.  The pointers it
compares are offsets from `p_headers`. -/
def loadSegments (kernel : String) (header : Elf64Ehdr) (pHeaders : Option Buffer) :
    (fuel offset : ℕ) → Efi Unit
  | 0, _ => pure ()
  | fuel + 1, offset =>
      if (offset : ℤ) < header.tableSize.toInt then do
        let table ← deref pHeaders
        let pHeader := Elf64Phdr.ofBytes fun k => table (offset + k)
        if pHeader.pType = ptLoad then
          loadSegment fw kernel pHeader
        loadSegments kernel header pHeaders fuel (offset + header.ePhentsize.toNat)
      else
        pure ()

/-- The lines of `efi_main` that read the file header. -/
def readHeader (kernel : String) : Efi Elf64Ehdr := do
  let _ ← call fw (.getInfo true)
  let _ ← allocatePool fw .fileInfo fw.fileInfoSize
  let _ ← call fw (.getInfo false)
  let t ← read fw kernel ehdrSize
  return Elf64Ehdr.ofBytes (t.into fw.stack)

/-- The lines of `efi_main` that check the file header: both branches only print. -/
def checkHeader (header : Elf64Ehdr) : Efi Unit :=
  if headerBad header then log .badHeader else pure ()

/-- The lines of `efi_main` that read the program headers. -/
def readProgramHeaders (kernel : String) (header : Elf64Ehdr) : Efi (Option Buffer) := do
  setPosition fw kernel header.ePhoff
  let size := header.tableSize.signExtend 64
  let pHeaders ← allocatePool fw .programHeaders size
  let t ← read fw kernel size
  return pHeaders.map t.into

/-- The lines of `efi_main` that load the kernel. -/
def loadKernel : Efi Elf64Ehdr := do
  let kernel ← loadFile fw none "kernel.elf"
  let kernel ← deref kernel
  let header ← readHeader fw kernel
  checkHeader header
  let pHeaders ← readProgramHeaders fw kernel header
  loadSegments fw kernel header pHeaders header.ePhnum.toNat 0
  return header

/-- `efi_main`. -/
def efiMain : Efi (BitVec 64) := do
  let header ← loadKernel fw
  let newFont ← loadPsf1Font fw none "zap-light16.psf"
  let newFramebuffer ← initGop fw
  let newFramebuffer ← deref newFramebuffer
  let _ ← call fw (.getMemoryMap true)
  let map ← allocatePool fw .memoryMap fw.mapSize
  let _ ← call fw (.getMemoryMap false)
  let s ← get
  let search := rsdpSearch s.mem fw.configurationTable fw.numberOfTableEntries.toNat
  let bootInfo : BootInfo :=
    { framebuffer := newFramebuffer
      psf1Font := newFont
      memMap := map.map fun _ => ()
      memMapSize := fw.mapSize
      memMapDescriptorSize := fw.descriptorSize
      rsdp := search.rsdp }
  let _ ← call fw .exitBootServices
  log (.kernelStart header.eEntry bootInfo)
  return 0

end

end Bootloader

end EtaOs
