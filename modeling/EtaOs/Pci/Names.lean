import EtaOs.CStr.Hex
import EtaOs.Pci.Enumeration
import EtaOs.Renderer.Model

/-!
# The names that the walk prints

A function of a device is printed with the names of its vendor, of the device, of its class, and of
its subclass.  Some names are strings of the kernel; a number without a name is printed as
`to_hstring` converts it, and the string is then printed before the next conversion overwrites it.

What the walk prints is therefore known from the headers that it reads, and is here a list of calls
of the renderer.  A class beyond the end of `device_classes` has no string; there the kernel would
take whatever lies behind the table for a pointer, and the list says nothing about what it prints.

* `deviceClasses`, `getVendorName`, `getDeviceName`, `getSubclassName`: the names.
* `IsText`: characters that the font has; every name is a text.
* `functionLine`, `reportOps`: what is printed of a function, and of a walk.
-/

namespace EtaOs

open BasicRenderer ByteMemory Numerals

namespace PCI

/-- The characters of a string of the source. -/
def chars (s : String) : List (BitVec 8) := s.toList.map fun c => BitVec.ofNat 8 c.toNat

/-- `device_classes`. -/
def deviceClasses : List (List (BitVec 8)) :=
  [chars "Unclassified", chars "Mass Storage Controller", chars "Network Controller",
    chars "Display Controller", chars "Multimedia Controller", chars "Memory Controller",
    chars "Bridge Device", chars "Simple Communication Controller",
    chars "Base System Peripheral", chars "Input Device Controller", chars "Docking Station",
    chars "Processor", chars "Serial Bus Controller", chars "Wireless Controller",
    chars "Intelligent Controller", chars "Satellite Communication Controller",
    chars "Encryption Controller", chars "Signal Processing Controller",
    chars "Processing Accelerator", chars "Non Essential Instrumentation"]

/-- `get_vendor_name`. -/
def getVendorName (vendorId : BitVec 16) : List (BitVec 8) :=
  if vendorId = 0x8086 then chars "Intel Corporation"
  else if vendorId = 0x1022 then chars "AMD"
  else if vendorId = 0x10de then chars "NVIDIA Corporation"
  else hexText .w16 vendorId

/-- `get_device_name`. -/
def getDeviceName (vendorId deviceId : BitVec 16) : List (BitVec 8) :=
  if vendorId = 0x8086 ∧ deviceId = 0x29C0 then chars "Express DRAM Controller"
  else if vendorId = 0x8086 ∧ deviceId = 0x2918 then chars "LPC Interface Controller"
  else if vendorId = 0x8086 ∧ deviceId = 0x2922 then chars "6 port SATA Controller [AHCI mode]"
  else if vendorId = 0x8086 ∧ deviceId = 0x2930 then chars "SMBus Controller"
  else hexText .w16 deviceId

/-- `mass_storage_controller_subclass_name`. -/
def massStorageControllerSubclassName (subclassCode : BitVec 8) : List (BitVec 8) :=
  if subclassCode = 0x00 then chars "SCSI Bus Controller"
  else if subclassCode = 0x01 then chars "IDE Controller"
  else if subclassCode = 0x02 then chars "Floppy Disk Controller"
  else if subclassCode = 0x03 then chars "IPI Bus Controller"
  else if subclassCode = 0x04 then chars "RAID Controller"
  else if subclassCode = 0x05 then chars "ATA Controller"
  else if subclassCode = 0x06 then chars "Serial ATA"
  else if subclassCode = 0x07 then chars "Serial Attached SCSI"
  else if subclassCode = 0x08 then chars "Non-Volatile Memory Controller"
  else if subclassCode = 0x80 then chars "Other"
  else hexText .w8 subclassCode

/-- `get_subclass_name`. -/
def getSubclassName (classCode subclassCode : BitVec 8) : List (BitVec 8) :=
  if classCode = 0x01 then massStorageControllerSubclassName subclassCode
  else if classCode = 0x03 ∧ subclassCode = 0x00 then chars "VGA Compatible Controller"
  else hexText .w8 subclassCode

/-! ## Every name is a text -/

/-- **A text**: its characters are those of a font, and none of them ends it. -/
def IsText (str : List (BitVec 8)) : Prop := ∀ c ∈ str, c ≠ 0 ∧ c.toNat < 128

instance (str : List (BitVec 8)) : Decidable (IsText str) :=
  inferInstanceAs (Decidable (∀ c ∈ str, c ≠ 0 ∧ c.toNat < 128))

/-- A string of the source whose characters are those of a font. -/
theorem isText_chars {s : String} {l : List Char} (hs : s = String.ofList l)
    (hl : l.all fun c => 0 < c.toNat ∧ c.toNat < 128) : IsText (chars s) := by
  subst hs
  intro c hc
  rw [chars, String.toList_ofList] at hc
  obtain ⟨d, hd, rfl⟩ := List.mem_map.mp hc
  have hchar := List.all_eq_true.mp hl d hd
  rw [decide_eq_true_eq] at hchar
  obtain ⟨hpos, hlt⟩ := hchar
  have hval : (BitVec.ofNat 8 d.toNat).toNat = d.toNat := by
    rw [BitVec.toNat_ofNat]
    omega
  refine ⟨fun hzero => ?_, by omega⟩
  rw [hzero] at hval
  exact absurd hpos (hval ▸ Nat.lt_irrefl 0)

theorem isText_hexText (w : HexWidth) (value : BitVec (8 * w.bytes)) :
    IsText (hexText w value) := by
  have hdigit : ∀ d < 16, hexChar d ≠ 0 ∧ (hexChar d).toNat < 128 := by decide
  intro c hc
  obtain ⟨d, hd, rfl⟩ := List.mem_map.mp hc
  exact hdigit d (digitsOf_lt (by decide) d hd)

theorem isText_deviceClasses : ∀ name ∈ deviceClasses, IsText name := by
  unfold deviceClasses
  simp only [List.forall_mem_cons]
  and_intros
  all_goals first
    | exact isText_chars rfl rfl
    | exact fun _ h => absurd h List.not_mem_nil

theorem isText_className {c : ℕ} (hc : c < deviceClasses.length) :
    IsText (deviceClasses.getD c []) := by
  rw [List.getD_eq_getElem _ _ hc]
  exact isText_deviceClasses _ (List.getElem_mem hc)

theorem isText_ite {c : Prop} [Decidable c] {str str' : List (BitVec 8)} (h : IsText str)
    (h' : IsText str') : IsText (if c then str else str') := by
  split
  · exact h
  · exact h'

theorem isText_getVendorName (vendorId : BitVec 16) : IsText (getVendorName vendorId) :=
  isText_ite (isText_chars rfl rfl) <| isText_ite (isText_chars rfl rfl) <|
    isText_ite (isText_chars rfl rfl) (isText_hexText _ _)

theorem isText_getDeviceName (vendorId deviceId : BitVec 16) :
    IsText (getDeviceName vendorId deviceId) :=
  isText_ite (isText_chars rfl rfl) <| isText_ite (isText_chars rfl rfl) <|
    isText_ite (isText_chars rfl rfl) <| isText_ite (isText_chars rfl rfl) (isText_hexText _ _)

theorem isText_massStorageControllerSubclassName (subclassCode : BitVec 8) :
    IsText (massStorageControllerSubclassName subclassCode) :=
  isText_ite (isText_chars rfl rfl) <| isText_ite (isText_chars rfl rfl) <|
    isText_ite (isText_chars rfl rfl) <| isText_ite (isText_chars rfl rfl) <|
    isText_ite (isText_chars rfl rfl) <| isText_ite (isText_chars rfl rfl) <|
    isText_ite (isText_chars rfl rfl) <| isText_ite (isText_chars rfl rfl) <|
    isText_ite (isText_chars rfl rfl) <| isText_ite (isText_chars rfl rfl) (isText_hexText _ _)

theorem isText_getSubclassName (classCode subclassCode : BitVec 8) :
    IsText (getSubclassName classCode subclassCode) :=
  isText_ite (isText_massStorageControllerSubclassName _) <|
    isText_ite (isText_chars rfl rfl) (isText_hexText _ _)

/-! ## What is printed -/

/-- What `enumerate_function` prints of a function with this header. -/
def functionLine (header : PCIDeviceHeader) : List RenderOp :=
  [.print (getVendorName header.vendorId), .print (chars " / "),
    .print (getDeviceName header.vendorId header.deviceId), .print (chars " / "),
    .print (deviceClasses.getD header.classCode.toNat []), .print (chars " / "),
    .print (getSubclassName header.classCode header.subclass), .nextln]

/-- The calls of the renderer that a part of the walk makes. -/
def reportOps (events : List PciEvent) : List RenderOp :=
  events.flatMap fun
    | .map _ => []
    | .report _ header => functionLine header

/-- The pages that it maps. -/
def mappedPages (events : List PciEvent) : List Addr :=
  events.filterMap fun
    | .map page => some page
    | .report _ _ => none

theorem reportOps_append (l l' : List PciEvent) :
    reportOps (l ++ l') = reportOps l ++ reportOps l' := List.flatMap_append

theorem mappedPages_append (l l' : List PciEvent) :
    mappedPages (l ++ l') = mappedPages l ++ mappedPages l' := List.filterMap_append

end PCI

end EtaOs
