import EtaOs.Acpi.Tables
import EtaOs.Library.Visits

/-!
# PCI enumeration

The kernel walks the configuration space of every segment in the MCFG table.  The walk stops
before the last bus of a segment, and gives up a bus whose device 0 is absent.

The configuration space is memory, one page for each function, and the walk maps such a page before
it reads the header in it.  A bus, a device and a function are enumerated by three functions of the
same shape; they keep their names and are nested as in the source, with the early returns of each.

The list has an event for every mapping and for every report, in the order in which they are made,
so that what is read, what is mapped and what is printed can each be picked out of it.

* `enumerateFunction`, `enumerateDevice`, `enumerateBus`, `enumeratePci`, `prepareAcpi`: the
  walk, as the list of what it does.
-/

namespace EtaOs

open ByteMemory ACPI

namespace PCI

/-- The fields of `PCIDeviceHeader` the walk reads. -/
structure PCIDeviceHeader where
  vendorId : BitVec 16
  deviceId : BitVec 16
  subclass : BitVec 8
  classCode : BitVec 8

/-- What the walk does: it maps a page of configuration space, and reports a function. -/
inductive PciEvent
  | map (page : Addr)
  | report (functionAddr : Addr) (header : PCIDeviceHeader)

section

variable (mem : Mem)

/-- The header at the start of a page of configuration space. -/
def deviceHeader (a : Addr) : PCIDeviceHeader where
  vendorId := load16 mem a
  deviceId := load16 mem (a + 2)
  subclass := mem (a + 10)
  classCode := mem (a + 11)

/-- The function at the page is there. -/
def Present (a : Addr) : Prop :=
  (deviceHeader mem a).deviceId ≠ 0 ∧ (deviceHeader mem a).deviceId ≠ 0xffff

instance (a : Addr) : Decidable (Present mem a) := inferInstanceAs (Decidable (_ ∧ _))

/-- `enumerate_function`. -/
def enumerateFunction (deviceAddr function : BitVec 64) : List PciEvent :=
  let functionAddr := deviceAddr + function <<< 12
  let header := deviceHeader mem functionAddr
  .map functionAddr ::
    if header.deviceId = 0 then []
    else if header.deviceId = 0xffff then []
    else [.report functionAddr header]

/-- `enumerate_device`. -/
def enumerateDevice (busAddr device : BitVec 64) : List PciEvent :=
  let deviceAddr := busAddr + device <<< 15
  let header := deviceHeader mem deviceAddr
  .map deviceAddr ::
    if header.deviceId = 0 then []
    else if header.deviceId = 0xffff then []
    else (List.range 8).flatMap fun function =>
      enumerateFunction mem deviceAddr (BitVec.ofNat 64 function)

/-- `enumerate_bus`. -/
def enumerateBus (baseAddr bus : BitVec 64) : List PciEvent :=
  let busAddr := baseAddr + bus <<< 20
  let header := deviceHeader mem busAddr
  .map busAddr ::
    if header.deviceId = 0 then []
    else if header.deviceId = 0xffff then []
    else (List.range 32).flatMap fun device => enumerateDevice mem busAddr (BitVec.ofNat 64 device)

/-- `entries`, an `int`. -/
def mcfgEntries (mcfg : Addr) : BitVec 32 :=
  (((SDTHeader.length mem mcfg).setWidth 64 - mcfgHeaderSize) / deviceConfigSize).setWidth 32

/-- The address of an entry of the table. -/
def deviceConfig (mcfg : Addr) (i : ℕ) : Addr :=
  mcfg + mcfgHeaderSize + deviceConfigSize * BitVec.ofNat 64 i

/-- The loop over the buses of an entry. -/
def enumerateConfig (config : Addr) : List PciEvent :=
  (List.range' (DeviceConfig.startBus mem config).toNat
    ((DeviceConfig.endBus mem config).toNat - (DeviceConfig.startBus mem config).toNat)).flatMap
    fun bus => enumerateBus mem (DeviceConfig.baseAddr mem config) (BitVec.ofNat 64 bus)

/-- `enumerate_pci`. -/
def enumeratePci (mcfg : Addr) : List PciEvent :=
  (List.range (mcfgEntries mem mcfg).toInt.toNat).flatMap fun i =>
    enumerateConfig mem (deviceConfig mcfg i)

/-- `prepare_acpi`, with `boot_info->rsdp`.  The answer of `find_table` is not looked at. -/
def prepareAcpi (rsdp : Addr) : List PciEvent :=
  let xsdt := RSDP2.xsdtAdrr mem rsdp
  let mcfg := findTable mem xsdt mcfgSignature
  enumeratePci mem mcfg

end

end PCI

end EtaOs
