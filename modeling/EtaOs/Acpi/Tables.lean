import EtaOs.Library.ByteMemory

/-!
# ACPI tables

The firmware leaves a tree of tables in memory, and the kernel needs one of them, the MCFG, which
says where the configuration space of the PCI buses is.  The structures of the source are read at
their packed offsets, little-endian, from a memory that may hold anything.

The search compares signatures byte by byte, a `char` against an `unsigned char`, which is a
comparison of an `int` that may be negative with one that never is.  The number of entries is
computed in the types of the source: for a table shorter than its header the subtraction wraps, and
the conversion to `int` turns the result negative, so that the loop does not run.

* `SDTHeader`, `MCFGHeader`, `DeviceConfig`: where their fields are.
* `findTable`: the search of the XSDT for a table with a signature; `findTableFrom_eq`, its
  answer.
* `toNat_entries`: how many entries a table has.
-/

namespace EtaOs

open ByteMemory

namespace ACPI

/-- `sizeof(SDTHeader)`. -/
def sdtHeaderSize : BitVec 64 := 36

/-- `sizeof(MCFGHeader)`. -/
def mcfgHeaderSize : BitVec 64 := 44

/-- `sizeof(DeviceConfig)`. -/
def deviceConfigSize : BitVec 64 := 16

section

variable (mem : Mem)

/-- `SDTHeader::length`. -/
def SDTHeader.length (header : Addr) : BitVec 32 := load32 mem (header + 4)

/-- `RSDP2::xsdt_adrr`. -/
def RSDP2.xsdtAdrr (rsdp : Addr) : Addr := load64 mem (rsdp + 24)

/-- `DeviceConfig::base_addr`. -/
def DeviceConfig.baseAddr (config : Addr) : BitVec 64 := load64 mem config

/-- `DeviceConfig::start_bus`. -/
def DeviceConfig.startBus (config : Addr) : BitVec 8 := mem (config + 10)

/-- `DeviceConfig::end_bus`. -/
def DeviceConfig.endBus (config : Addr) : BitVec 8 := mem (config + 11)

/-- The inner loop of `find_table` from byte `j` on, with the bytes left to compare: whether it
returns.  The signature is given as `char`, which is signed, and the table's as `unsigned char`. -/
def signatureLoop (header : Addr) (signature : ℕ → BitVec 8) (j : ℕ) : ℕ → Bool
  | 0 => false
  | n + 1 =>
      if ((mem (header + BitVec.ofNat 64 j)).toNat : ℤ) ≠ (signature j).toInt then false
      else if j = 3 then true
      else signatureLoop header signature (j + 1) n

/-- The inner loop of `find_table`. -/
def signatureMatches (header : Addr) (signature : ℕ → BitVec 8) : Bool :=
  signatureLoop mem header signature 0 4

/-- The table entry `i` points to. -/
def sdtEntry (sdtHeader : Addr) (i : BitVec 32) : Addr :=
  load64 mem (sdtHeader + sdtHeaderSize + (i * 8).signExtend 64)

/-- The loop of `find_table` from entry `i` on, with the entries left to look at. -/
def findTableFrom (sdtHeader : Addr) (signature : ℕ → BitVec 8) (i : BitVec 32) : ℕ → Addr
  | 0 => 0
  | n + 1 =>
      let newSdtHeader := sdtEntry mem sdtHeader i
      if signatureMatches mem newSdtHeader signature then newSdtHeader
      else findTableFrom sdtHeader signature (i + 1) n

/-- `entries`, an `int`. -/
def sdtEntries (sdtHeader : Addr) : BitVec 32 :=
  (((SDTHeader.length mem sdtHeader).setWidth 64 - sdtHeaderSize) / 8).setWidth 32

/-- `find_table`. -/
def findTable (sdtHeader : Addr) (signature : ℕ → BitVec 8) : Addr :=
  findTableFrom mem sdtHeader signature 0 (sdtEntries mem sdtHeader).toInt.toNat

/-- Some entry has the signature. -/
def HasTable (sdtHeader : Addr) (signature : ℕ → BitVec 8) : Prop :=
  ∃ k < (sdtEntries mem sdtHeader).toInt.toNat,
    signatureMatches mem (sdtEntry mem sdtHeader (BitVec.ofNat 32 k)) signature = true

/-- **The search from an entry on** finds the first entry whose signature matches. -/
theorem findTableFrom_eq (mem : Mem) (sdtHeader : Addr) (signature : ℕ → BitVec 8) (i n : ℕ) :
    findTableFrom mem sdtHeader signature (BitVec.ofNat 32 i) n =
      (((List.range' i n).map fun k => sdtEntry mem sdtHeader (BitVec.ofNat 32 k)).find?
        (signatureMatches mem · signature)).getD 0 := by
  induction n generalizing i with
  | zero => rfl
  | succ n ih =>
      have hnext : BitVec.ofNat 32 i + 1 = BitVec.ofNat 32 (i + 1) := (BitVec.ofNat_add _ _).symm
      rw [findTableFrom, List.range'_succ, List.map_cons, List.find?_cons, hnext, ih]
      split
      next h => rw [h, Option.getD_some]
      next h => rw [Bool.eq_false_iff.mpr h]

/-- Where no entry has the signature, `find_table` answers NULL. -/
theorem findTable_eq_zero {mem : Mem} {sdtHeader : Addr} {signature : ℕ → BitVec 8}
    (h : ¬ HasTable mem sdtHeader signature) : findTable mem sdtHeader signature = 0 := by
  have hnone : ((List.range' 0 (sdtEntries mem sdtHeader).toInt.toNat).map fun k =>
      sdtEntry mem sdtHeader (BitVec.ofNat 32 k)).find? (signatureMatches mem · signature) =
      none := by
    rw [List.find?_eq_none]
    intro t ht hmatch
    obtain ⟨k, hk, rfl⟩ := List.mem_map.mp ht
    exact h ⟨k, by simpa using hk, hmatch⟩
  refine (findTableFrom_eq mem sdtHeader signature 0 _).trans ?_
  rw [hnone, Option.getD_none]

/-- The number of entries behind a header, an `int`, for any length of the table: of a table
shorter than its header the `int` is negative. -/
theorem toNat_entries (len : BitVec 32) {header size : BitVec 64} (hheader : header.toNat < 2 ^ 31)
    (hsize : size = 8 ∨ size = 16) :
    (((len.setWidth 64 - header) / size).setWidth 32).toInt.toNat =
      (len.toNat - header.toNat) / size.toNat := by
  have hlen := len.isLt
  have hwide : (len.setWidth 64).toNat = len.toNat := by
    rw [BitVec.toNat_setWidth]
    omega
  have hentries : (((len.setWidth 64 - header) / size).setWidth 32).toNat =
      ((2 ^ 64 - header.toNat + len.toNat) % 2 ^ 64 / size.toNat) % 2 ^ 32 := by
    rw [BitVec.toNat_setWidth, BitVec.toNat_udiv, BitVec.toNat_sub, hwide]
  rw [BitVec.toInt_eq_toNat_cond, hentries]
  rcases hsize with rfl | rfl
  · rw [show (8 : BitVec 64).toNat = 8 from rfl]
    split <;> omega
  · rw [show (16 : BitVec 64).toNat = 16 from rfl]
    split <;> omega

/-- The signature `"MCFG"`. -/
def mcfgSignature : ℕ → BitVec 8 := fun j => [0x4d, 0x43, 0x46, 0x47].getD j 0

end

end ACPI

end EtaOs
