import EtaOs.Library.IntLoop

/-!
# The ELF headers the boot loader reads

`efi_main` overlays the two ELF structures on bytes that it has read from the kernel file.  Here
they are the bytes themselves, with the fields read out at their offsets in little-endian order, so
that any file can be given to the boot loader, also one that is no ELF file at all.

Only the fields that the boot loader looks at are read.  The header check compares with `memcmp`
and a chain of `||`, and the two sizes are computed in `int`, so that both have their own
definitions here.

* `Buffer`: what a pointer to loaded bytes points at.
* `Elf64Ehdr`, `Elf64Phdr`: the fields of the two headers that `efi_main` reads, and `ofBytes`,
  where they are.
* `headerBad`: the check of the file header.
* `Elf64Ehdr.tableSize`, `Elf64Phdr.pages`: the two `int` computations of `efi_main`.
-/

namespace EtaOs

namespace Bootloader

/-- Bytes by offset. -/
abbrev Buffer := ℕ → BitVec 8

def Buffer.u16 (b : Buffer) (k : ℕ) : BitVec 16 := b (k + 1) ++ b k

def Buffer.u32 (b : Buffer) (k : ℕ) : BitVec 32 := b.u16 (k + 2) ++ b.u16 k

def Buffer.u64 (b : Buffer) (k : ℕ) : BitVec 64 := b.u32 (k + 4) ++ b.u32 k

/-- `Elf64_Ehdr`. -/
structure Elf64Ehdr where
  eIdent : Buffer
  eType : BitVec 16
  eMachine : BitVec 16
  eVersion : BitVec 32
  eEntry : BitVec 64
  ePhoff : BitVec 64
  ePhentsize : BitVec 16
  ePhnum : BitVec 16

/-- The file header at the start of the bytes. -/
def Elf64Ehdr.ofBytes (b : Buffer) : Elf64Ehdr where
  eIdent k := if k < 16 then b k else 0
  eType := b.u16 16
  eMachine := b.u16 18
  eVersion := b.u32 20
  eEntry := b.u64 24
  ePhoff := b.u64 32
  ePhentsize := b.u16 54
  ePhnum := b.u16 56

/-- `sizeof(Elf64_Ehdr)`. -/
def ehdrSize : BitVec 64 := 64

/-- `Elf64_Phdr`. -/
structure Elf64Phdr where
  pType : BitVec 32
  pOffset : BitVec 64
  pPaddr : BitVec 64
  pFilesz : BitVec 64
  pMemsz : BitVec 64

/-- The program header at the start of the bytes. -/
def Elf64Phdr.ofBytes (b : Buffer) : Elf64Phdr where
  pType := b.u32 0
  pOffset := b.u64 8
  pPaddr := b.u64 24
  pFilesz := b.u64 32
  pMemsz := b.u64 40

section Congr

variable {b b' : Buffer}

theorem Buffer.u16_congr {k n : ℕ} (h : ∀ j < n, b j = b' j) (hk : k + 2 ≤ n) :
    b.u16 k = b'.u16 k := by
  unfold Buffer.u16
  rw [h k (by omega), h (k + 1) (by omega)]

theorem Buffer.u32_congr {k n : ℕ} (h : ∀ j < n, b j = b' j) (hk : k + 4 ≤ n) :
    b.u32 k = b'.u32 k := by
  unfold Buffer.u32
  rw [u16_congr h (by omega), u16_congr h (by omega)]

theorem Buffer.u64_congr {k n : ℕ} (h : ∀ j < n, b j = b' j) (hk : k + 8 ≤ n) :
    b.u64 k = b'.u64 k := by
  unfold Buffer.u64
  rw [u32_congr h (by omega), u32_congr h (by omega)]

/-- The file header is read from its own 64 bytes. -/
theorem Elf64Ehdr.ofBytes_congr (h : ∀ k < 64, b k = b' k) : ofBytes b = ofBytes b' := by
  have hident : (fun k => if k < 16 then b k else 0) = fun k => if k < 16 then b' k else 0 := by
    funext k
    split
    next hk => exact h k (by omega)
    next => rfl
  unfold ofBytes
  rw [hident, Buffer.u16_congr h (by omega), Buffer.u16_congr h (by omega),
    Buffer.u32_congr h (by omega), Buffer.u64_congr h (by omega), Buffer.u64_congr h (by omega),
    Buffer.u16_congr h (by omega), Buffer.u16_congr h (by omega)]

/-- A program header is read from its own 56 bytes. -/
theorem Elf64Phdr.ofBytes_congr (h : ∀ k < 56, b k = b' k) : ofBytes b = ofBytes b' := by
  unfold ofBytes
  rw [Buffer.u32_congr h (by omega), Buffer.u64_congr h (by omega), Buffer.u64_congr h (by omega),
    Buffer.u64_congr h (by omega), Buffer.u64_congr h (by omega)]

end Congr

/-- `PT_LOAD`. -/
def ptLoad : BitVec 32 := 1

/-! ## The check of the header -/

/-- The loop of `memcmp` from `i` on. -/
def memcmpFrom (a b : Buffer) (i : ℕ) : ℕ → BitVec 32
  | 0 => 0
  | n + 1 => if a i < b i then -1 else if a i > b i then 1 else memcmpFrom a b (i + 1) n

/-- `memcmp`. -/
def memcmp (a b : Buffer) (n : ℕ) : BitVec 32 := memcmpFrom a b 0 n

/-- `ELFMAG`. -/
def elfMag : Buffer := fun k => [0x7f, 0x45, 0x4c, 0x46].getD k 0

/-- The condition under which `efi_main` reports a bad kernel format.  The indices are
`EI_CLASS` and `EI_DATA`, the values `ELFCLASS64`, `ELFDATA2LSB`, `ET_EXEC`, `EM_X86_64` and
`EV_CURRENT`. -/
def headerBad (header : Elf64Ehdr) : Bool :=
  memcmp header.eIdent elfMag 4 ≠ 0 ||
    header.eIdent 4 ≠ 2 ||
    header.eIdent 5 ≠ 1 ||
    header.eType ≠ 2 ||
    header.eMachine ≠ 62 ||
    header.eVersion ≠ 1

/-! ## Sizes -/

/-- `header.e_phnum * header.e_phentsize`, an `int`. -/
def Elf64Ehdr.tableSize (header : Elf64Ehdr) : BitVec 32 :=
  header.ePhnum.setWidth 32 * header.ePhentsize.setWidth 32

/-- `(p_header->p_memsz + 0x1000 - 1) / 0x1000`, stored in an `int`. -/
def Elf64Phdr.pages (header : Elf64Phdr) : BitVec 32 :=
  ((header.pMemsz + 0x1000 - 1) / 0x1000).setWidth 32

theorem toNat_tableSize (header : Elf64Ehdr) : header.tableSize.toNat =
    header.ePhnum.toNat * header.ePhentsize.toNat := by
  have h1 := header.ePhnum.isLt
  have h2 := header.ePhentsize.isLt
  have h3 : header.ePhnum.toNat * header.ePhentsize.toNat < 2 ^ 16 * 2 ^ 16 :=
    Nat.mul_lt_mul'' h1 h2
  unfold Elf64Ehdr.tableSize
  rw [BitVec.toNat_mul, BitVec.toNat_setWidth, BitVec.toNat_setWidth,
    Nat.mod_eq_of_lt (a := header.ePhnum.toNat) (by omega),
    Nat.mod_eq_of_lt (a := header.ePhentsize.toNat) (by omega), Nat.mod_eq_of_lt (by omega)]

/-- The quotient in whole numbers: adding wraps for the last page sizes below `2 ^ 64`. -/
theorem toNat_pages (header : Elf64Phdr) : header.pages.toNat =
    (if header.pMemsz.toNat ≤ 2 ^ 64 - 4096 then (header.pMemsz.toNat + 4095) / 4096 else 0)
      % 2 ^ 32 := by
  have hm := header.pMemsz.isLt
  have hsum : (header.pMemsz + 0x1000 - 1).toNat = (header.pMemsz.toNat + 4095) % 2 ^ 64 := by
    bv_omega
  have hpage : (0x1000 : BitVec 64).toNat = 4096 := rfl
  unfold Elf64Phdr.pages
  rw [BitVec.toNat_setWidth, BitVec.toNat_udiv, hsum, hpage]
  refine congrArg (· % 2 ^ 32) ?_
  split <;> omega

/-- The pages asked for cover the segment unless the rounding or the `int` loses some. -/
theorem pMemsz_le_pages_iff (header : Elf64Phdr) :
    header.pMemsz.toNat ≤ 4096 * (header.pages.signExtend 64).toNat ↔
      header.pMemsz.toNat ≤ 2 ^ 64 - 4096 ∧
        ((header.pMemsz.toNat + 4095) / 4096 < 2 ^ 31 ∨
          2 ^ 31 ≤ (header.pMemsz.toNat + 4095) / 4096 % 2 ^ 32) := by
  have hm := header.pMemsz.isLt
  have hpages := toNat_pages header
  rcases Nat.lt_or_ge header.pages.toNat (2 ^ 31) with h | h
  · rw [IntLoop.signExtend_of_lt h]
    split at hpages <;> omega
  · rw [IntLoop.signExtend_of_ge h]
    split at hpages <;> omega

end Bootloader

end EtaOs
