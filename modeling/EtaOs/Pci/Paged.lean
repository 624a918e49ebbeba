import EtaOs.Pci.Names
import EtaOs.Renderer.Paged

/-!
# The PCI walk behind the page tables

The kernel reads the tables of the firmware and the configuration space through pointers that go
through its page tables.  It maps every page of configuration space to itself before it reads it,
and a byte that is on no page is a page fault.

What it finds it prints, between the reads, so that the walk stores pixels in the same memory, and
the cursor goes through all of it.  A page may therefore be read when something else has been
drawn since it was mapped.

A class that `device_classes` has no string for ends the walk here.  The kernel goes on, with the
bytes behind the table as a pointer, and there is nothing to be said about what it reads then.

* `HeapM.word16`, `HeapM.word32`, `HeapM.word64`: loads that may cross the end of a page.
* `HeapM.findTable`: the search of the XSDT.
* `HeapM.reportFunction`: what is read and printed of a function.
* `HeapM.enumerateFunction`, `HeapM.enumerateDevice`, `HeapM.enumerateBus`, `HeapM.enumeratePci`,
  `HeapM.prepareAcpi`: the walk, which takes the cursor and returns it.
-/

namespace EtaOs

open ByteMemory ACPI PCI

namespace HeapM

variable {σ : Type}

/-! ## Fields of packed structures -/

/-- A two-byte load, byte by byte. -/
def word16 (a : Addr) : HeapM σ (BitVec 16) := do
  let low ← load8 a
  let high ← load8 (a + 1)
  pure (high ++ low)

/-- A four-byte load, byte by byte. -/
def word32 (a : Addr) : HeapM σ (BitVec 32) := do
  let low ← word16 a
  let high ← word16 (a + 2)
  pure (high ++ low)

/-- An eight-byte load, byte by byte. -/
def word64 (a : Addr) : HeapM σ (BitVec 64) := do
  let b0 ← load8 a
  let b1 ← load8 (a + 1)
  let b2 ← load8 (a + 2)
  let b3 ← load8 (a + 3)
  let b4 ← load8 (a + 4)
  let b5 ← load8 (a + 5)
  let b6 ← load8 (a + 6)
  let b7 ← load8 (a + 7)
  pure (b7 ++ b6 ++ b5 ++ b4 ++ b3 ++ b2 ++ b1 ++ b0)

/-! ## The search of the XSDT -/

/-- The inner loop of `find_table` from byte `j` on, with the bytes left to compare. -/
def signatureLoop (header : Addr) (signature : ℕ → BitVec 8) (j : ℕ) : ℕ → HeapM σ Bool
  | 0 => pure false
  | n + 1 => do
      let byte ← load8 (header + BitVec.ofNat 64 j)
      if (byte.toNat : ℤ) ≠ (signature j).toInt then pure false
      else if j = 3 then pure true
      else signatureLoop header signature (j + 1) n

/-- The loop of `find_table` from entry `i` on, with the entries left to look at. -/
def findTableFrom (sdtHeader : Addr) (signature : ℕ → BitVec 8) (i : BitVec 32) :
    ℕ → HeapM σ Addr
  | 0 => pure 0
  | n + 1 => do
      let newSdtHeader ← word64 (sdtHeader + sdtHeaderSize + (i * 8).signExtend 64)
      let found ← signatureLoop newSdtHeader signature 0 4
      if found = true then pure newSdtHeader
      else findTableFrom sdtHeader signature (i + 1) n

/-- `find_table`. -/
def findTable (sdtHeader : Addr) (signature : ℕ → BitVec 8) : HeapM σ Addr := do
  let length ← word32 (sdtHeader + 4)
  let entries : BitVec 32 := ((length.setWidth 64 - sdtHeaderSize) / 8).setWidth 32
  findTableFrom sdtHeader signature 0 entries.toInt.toNat

/-! ## What is printed of a function -/

section Report

variable (t : Target) (glyphBuffer : Addr)

/-- `device_classes[class_code]`. -/
def deviceClass (classCode : BitVec 8) : HeapM σ (List (BitVec 8)) :=
  match deviceClasses[classCode.toNat]? with
  | some name => pure name
  | none => fun _ => none

/-- `enumerate_function` behind its early returns. -/
def reportFunction (functionAddr : Addr) (p : Point) : HeapM σ Point := do
  let vendorId ← word16 functionAddr
  let p ← print t glyphBuffer (getVendorName vendorId) p
  let p ← print t glyphBuffer (chars " / ") p
  let vendorId ← word16 functionAddr
  let deviceId ← word16 (functionAddr + 2)
  let p ← print t glyphBuffer (getDeviceName vendorId deviceId) p
  let p ← print t glyphBuffer (chars " / ") p
  let classCode ← load8 (functionAddr + 11)
  let name ← deviceClass classCode
  let p ← print t glyphBuffer name p
  let p ← print t glyphBuffer (chars " / ") p
  let classCode ← load8 (functionAddr + 11)
  let subclass ← load8 (functionAddr + 10)
  let p ← print t glyphBuffer (getSubclassName classCode subclass) p
  pure ⟨0, toLong (p.y + 16)⟩

end Report

/-! ## The walk -/

section Walk

variable (source : FrameSource σ) (ptm : PageTableManager) (t : Target) (glyphBuffer : Addr)

/-- How each of the three levels begins: the page is mapped to itself, and its device identifier
compared with 0 and with `0xffff`. -/
def visitPage (page : Addr) (rest : Point → HeapM σ Point) (p : Point) : HeapM σ Point := do
  mapMem source ptm page page
  let deviceId ← word16 (page + 2)
  if deviceId = 0 then pure p
  else do
    let deviceId ← word16 (page + 2)
    if deviceId = 0xffff then pure p
    else rest p

/-- `enumerate_function`. -/
def enumerateFunction (deviceAddr function : BitVec 64) (p : Point) : HeapM σ Point :=
  let functionAddr := deviceAddr + function <<< 12
  visitPage source ptm functionAddr (reportFunction t glyphBuffer functionAddr) p

/-- `enumerate_device`. -/
def enumerateDevice (busAddr device : BitVec 64) (p : Point) : HeapM σ Point :=
  let deviceAddr := busAddr + device <<< 15
  visitPage source ptm deviceAddr
    (fun p => (List.range 8).foldlM (fun p function =>
      enumerateFunction source ptm t glyphBuffer deviceAddr (BitVec.ofNat 64 function) p) p)
    p

/-- `enumerate_bus`. -/
def enumerateBus (baseAddr bus : BitVec 64) (p : Point) : HeapM σ Point :=
  let busAddr := baseAddr + bus <<< 20
  visitPage source ptm busAddr
    (fun p => (List.range 32).foldlM (fun p device =>
      enumerateDevice source ptm t glyphBuffer busAddr (BitVec.ofNat 64 device) p) p)
    p

/-- The loop over the buses of a record from `bus` on, which reads the last bus and the base again
for every bus. -/
def busLoop (config : Addr) : ℕ → BitVec 64 → Point → HeapM σ Point
  | 0, _, _ => fun _ => none
  | fuel + 1, bus, p => do
      let endBus ← load8 (config + 11)
      if bus < endBus.setWidth 64 then do
        let baseAddr ← word64 config
        let p ← enumerateBus source ptm t glyphBuffer baseAddr bus p
        busLoop config fuel (bus + 1) p
      else pure p

/-- The loop over the buses of a record.  The last bus is a byte, so there are fewer than 256
iterations. -/
def enumerateConfig (config : Addr) (p : Point) : HeapM σ Point := do
  let startBus ← load8 (config + 10)
  busLoop source ptm t glyphBuffer config 256 (startBus.setWidth 64) p

/-- `enumerate_pci`. -/
def enumeratePci (mcfg : Addr) (p : Point) : HeapM σ Point := do
  let length ← word32 (mcfg + 4)
  let entries : BitVec 32 :=
    ((length.setWidth 64 - mcfgHeaderSize) / deviceConfigSize).setWidth 32
  (List.range entries.toInt.toNat).foldlM
    (fun p i => enumerateConfig source ptm t glyphBuffer (deviceConfig mcfg i) p) p

/-- `prepare_acpi`, with `boot_info->rsdp`. -/
def prepareAcpi (rsdp : Addr) (p : Point) : HeapM σ Point := do
  let xsdt ← word64 (rsdp + 24)
  let mcfg ← findTable xsdt mcfgSignature
  enumeratePci source ptm t glyphBuffer mcfg p

end Walk

end HeapM

end EtaOs
