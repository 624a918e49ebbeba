import EtaOs.Library.ByteMemory
import EtaOs.Library.RadixTree

/-!
# Page-table entries and the hardware walk

`PageDirEntry` is the 64-bit entry of `paging/paging.h`, with the accessors of
`paging.cpp`, and `PageMapIndexer` the split of a virtual address into four table
indices.  Both are the program's own view of a page table.

`walk` is the processor's: four levels, each reading the entry at the index given by
nine bits of the address, going on when the Present bit is set, to the frame given
by bits 12 to 51 of the entry.  It is `RadixTree.descend` on the edges stored in
memory.
-/

namespace EtaOs

open ByteMemory RadixTree

/-! ## The program's view -/

/-- `PT_FLAG`. -/
inductive PtFlag where
  | present
  | readWrite
  | userSuper
  | writeThrough
  | cacheDisabled
  | accessed
  | largerPages
  | custom0
  | custom1
  | custom2
  | nx
  deriving DecidableEq, Repr

/-- The bit number of a flag. -/
def PtFlag.bit : PtFlag → ℕ
  | present => 0
  | readWrite => 1
  | userSuper => 2
  | writeThrough => 3
  | cacheDisabled => 4
  | accessed => 5
  | largerPages => 7
  | custom0 => 9
  | custom1 => 10
  | custom2 => 11
  | nx => 63

/-- `PageDirEntry`. -/
structure PageDirEntry where
  value : BitVec 64
  deriving DecidableEq

namespace PageDirEntry

/-- `PageDirEntry::set_flag`. -/
def setFlag (e : PageDirEntry) (flag : PtFlag) (enabled : Bool) : PageDirEntry :=
  let bitSelector : BitVec 64 := 1#64 <<< flag.bit
  let value := e.value &&& ~~~bitSelector
  if enabled then ⟨value ||| bitSelector⟩ else ⟨value⟩

/-- `PageDirEntry::get_flag`.  The comparison binds tighter than the mask, so
`value & bit_selector > 0` is `value & (bit_selector > 0)`. -/
def getFlag (e : PageDirEntry) (flag : PtFlag) : Bool :=
  let bitSelector : BitVec 64 := 1#64 <<< flag.bit
  (e.value &&& (if bitSelector > 0 then 1#64 else 0#64)) != 0

/-- `PageDirEntry::get_address`. -/
def getAddress (e : PageDirEntry) : BitVec 64 :=
  (e.value &&& 0x000ffffffffff000#64) >>> 12

/-- `PageDirEntry::set_address`. -/
def setAddress (e : PageDirEntry) (addr : BitVec 64) : PageDirEntry :=
  let addr := addr &&& 0x000000ffffffffff#64
  let value := e.value &&& 0xfff0000000000fff#64
  ⟨value ||| (addr <<< 12)⟩

end PageDirEntry

/-- `PageMapIndexer`: the four table indices of a virtual address. -/
structure PageMapIndexer where
  pdpI : BitVec 64
  pdI : BitVec 64
  ptI : BitVec 64
  pI : BitVec 64

/-- `PageMapIndexer::PageMapIndexer`. -/
def PageMapIndexer.ofAddr (virtAddr : BitVec 64) : PageMapIndexer :=
  let virtAddr := virtAddr >>> 12
  let pI := virtAddr &&& 0x1ff
  let virtAddr := virtAddr >>> 9
  let ptI := virtAddr &&& 0x1ff
  let virtAddr := virtAddr >>> 9
  let pdI := virtAddr &&& 0x1ff
  let virtAddr := virtAddr >>> 9
  let pdpI := virtAddr &&& 0x1ff
  ⟨pdpI, pdI, ptI, pI⟩

/-! ## The processor's view -/

/-- The address of entry `i` of the table at `t`. -/
def entryAddr (t : BitVec 64) (i : BitVec 9) : BitVec 64 := t + 8 * i.setWidth 64

/-- The frame an entry of a table points to, when it is present. -/
def edge (m : Mem) (t : BitVec 64) (i : BitVec 9) : Option (BitVec 64) :=
  let e := load64 m (entryAddr t i)
  if e.getLsbD 0 then some (e &&& 0x000ffffffffff000#64) else none

/-- The table index of a virtual address at a level, counted from the page tables up. -/
def tableIndex (w : BitVec 64) (level : ℕ) : BitVec 9 := w.extractLsb' (12 + 9 * level) 9

/-- The path of a virtual address through the four levels. -/
def pathOf (w : BitVec 64) : List (BitVec 9) :=
  [tableIndex w 3, tableIndex w 2, tableIndex w 1, tableIndex w 0]

/-- The four-level walk: the frame a virtual address is mapped to. -/
def walk (m : Mem) (root w : BitVec 64) : Option (BitVec 64) := descend (edge m) root (pathOf w)

/-- A table of the tree: one of the three levels below the root, or the root. -/
abbrev Table (m : Mem) (root t : BitVec 64) : Prop := IsTable (edge m) 3 root t

/-- Two virtual addresses of one page: they agree on the bits the walk reads. -/
def SamePage (v w : BitVec 64) : Prop := v.extractLsb' 12 36 = w.extractLsb' 12 36

instance (v w : BitVec 64) : Decidable (SamePage v w) :=
  inferInstanceAs (Decidable (v.extractLsb' 12 36 = w.extractLsb' 12 36))

/-- A 4 KiB frame of physical memory: page-aligned, and below the 52-bit limit of
physical addresses. -/
def IsFrame (f : BitVec 64) : Prop := f.toNat % 4096 = 0 ∧ f.toNat < 2 ^ 52

instance (f : BitVec 64) : Decidable (IsFrame f) :=
  inferInstanceAs (Decidable (f.toNat % 4096 = 0 ∧ f.toNat < 2 ^ 52))

/-! ## The two views agree -/

/-- The address field of an entry: bits 12 to 51. -/
theorem getLsbD_addressMask {j : ℕ} (hj : j < 64) :
    (0x000ffffffffff000#64).getLsbD j = (decide (12 ≤ j) && decide (j < 52)) := by
  rw [show 0x000ffffffffff000#64 = (BitVec.allOnes 40).setWidth 64 <<< 12 by decide]
  simp only [BitVec.getLsbD_shiftLeft, BitVec.getLsbD_setWidth, BitVec.getLsbD_allOnes]
  grind

theorem getLsbD_keepMask {j : ℕ} (hj : j < 64) :
    (0xfff0000000000fff#64).getLsbD j = !(decide (12 ≤ j) && decide (j < 52)) := by
  rw [show 0xfff0000000000fff#64 = ~~~0x000ffffffffff000#64 by decide, BitVec.getLsbD_not,
    getLsbD_addressMask hj]
  simp [hj]

theorem getLsbD_frameMask {j : ℕ} (hj : j < 64) :
    (0x000000ffffffffff#64).getLsbD j = decide (j < 40) := by
  rw [show 0x000000ffffffffff#64 = (BitVec.allOnes 40).setWidth 64 by decide]
  simp only [BitVec.getLsbD_setWidth, BitVec.getLsbD_allOnes]
  grind

/-- The bits of a frame address outside the address field are zero. -/
theorem IsFrame.getLsbD_eq_false {p : BitVec 64} (hp : IsFrame p) {j : ℕ}
    (hj : j < 12 ∨ 52 ≤ j) : p.getLsbD j = false := by
  rcases hj with hj | hj
  · have h := Nat.testBit_mod_two_pow p.toNat 12 j
    rw [show (2 : ℕ) ^ 12 = 4096 by rfl, hp.1, Nat.zero_testBit] at h
    rw [← BitVec.testBit_toNat]
    simpa [hj] using h.symm
  · exact Nat.testBit_lt_two_pow (lt_of_lt_of_le hp.2 (Nat.pow_le_pow_right (by decide) hj))

theorem getFlag_present (e : PageDirEntry) : e.getFlag .present = e.value.getLsbD 0 := by
  have hand : e.value &&& 1#64 = if e.value.getLsbD 0 then 1#64 else 0#64 := by
    apply BitVec.eq_of_getLsbD_eq
    intro j hj
    by_cases h0 : j = 0
    · subst h0
      cases h : e.value.getLsbD 0 <;> simp [-BitVec.getLsbD_eq_getElem, h]
    · cases h : e.value.getLsbD 0 <;> simp [h0, BitVec.getLsbD_one]
  have hsel : (1#64 <<< PtFlag.present.bit > 0) := by decide
  simp only [PageDirEntry.getFlag, hsel, if_true, hand]
  cases e.value.getLsbD 0 <;> rfl

theorem getAddress_shift (e : PageDirEntry) :
    e.getAddress <<< 12 = e.value &&& 0x000ffffffffff000#64 := by
  apply BitVec.eq_of_getLsbD_eq
  intro j hj
  simp only [PageDirEntry.getAddress, BitVec.getLsbD_shiftLeft, BitVec.getLsbD_ushiftRight,
    BitVec.getLsbD_and, getLsbD_addressMask hj]
  rcases Nat.lt_or_ge j 12 with h | h
  · simp [h]
  · rw [show 12 + (j - 12) = j by omega, getLsbD_addressMask hj]
    simp [hj, h]

/-- **A setter of a flag** writes the bit of the flag only. -/
theorem getLsbD_setFlag (e : PageDirEntry) (flag : PtFlag) (enabled : Bool) (j : ℕ) :
    (e.setFlag flag enabled).value.getLsbD j =
      if j = flag.bit then enabled else e.value.getLsbD j := by
  have hbit : flag.bit < 64 := by cases flag <;> decide
  have hsel : (1#64 <<< flag.bit).getLsbD j = decide (j = flag.bit) := by
    rw [BitVec.getLsbD_shiftLeft, BitVec.getLsbD_one]
    grind
  rcases Nat.lt_or_ge j 64 with hj | hj
  · have hkeep : (e.value &&& ~~~(1#64 <<< flag.bit)).getLsbD j =
        (e.value.getLsbD j && !decide (j = flag.bit)) := by
      rw [BitVec.getLsbD_and, BitVec.getLsbD_not, hsel, decide_eq_true hj, Bool.true_and]
    unfold PageDirEntry.setFlag
    cases enabled
    · simp only [Bool.false_eq_true, if_false, hkeep]
      split <;> simp_all
    · simp only [if_true, BitVec.getLsbD_or, hkeep, hsel]
      split <;> simp_all
  · rw [BitVec.getLsbD_of_ge _ _ hj, BitVec.getLsbD_of_ge _ _ hj, if_neg (by omega)]

/-- **The setter of the address** writes the address field only. -/
theorem getLsbD_setAddress (e : PageDirEntry) (addr : BitVec 64) {j : ℕ} (hj : j < 64) :
    (e.setAddress addr).value.getLsbD j =
      if 12 ≤ j ∧ j < 52 then addr.getLsbD (j - 12) else e.value.getLsbD j := by
  simp only [PageDirEntry.setAddress, BitVec.getLsbD_or, BitVec.getLsbD_and,
    BitVec.getLsbD_shiftLeft, getLsbD_keepMask hj, getLsbD_frameMask (by omega : j - 12 < 64)]
  grind

/-- The entry `map_mem` writes: the address field set, Present and ReadWrite on. -/
def mappedEntry (e : PageDirEntry) (addr : BitVec 64) : PageDirEntry :=
  ((e.setAddress addr).setFlag .present true).setFlag .readWrite true

theorem mappedEntry_present (e : PageDirEntry) (addr : BitVec 64) :
    (mappedEntry e addr).value.getLsbD 0 = true := by
  rw [mappedEntry, getLsbD_setFlag, getLsbD_setFlag]
  rfl

/-- The address field of a mapped entry is the page address, cut to 52 bits. -/
theorem mappedEntry_address (e : PageDirEntry) (p : BitVec 64) :
    (mappedEntry e (p >>> 12)).value &&& 0x000ffffffffff000#64 =
      p &&& 0x000ffffffffff000#64 := by
  apply BitVec.eq_of_getLsbD_eq
  intro j hj
  rw [BitVec.getLsbD_and, BitVec.getLsbD_and, getLsbD_addressMask hj]
  by_cases h : 12 ≤ j ∧ j < 52
  · have hsub : 12 + (j - 12) = j := by omega
    have h0 : j ≠ PtFlag.present.bit := by simp only [PtFlag.bit]; omega
    have h1 : j ≠ PtFlag.readWrite.bit := by simp only [PtFlag.bit]; omega
    rw [mappedEntry, getLsbD_setFlag, getLsbD_setFlag, getLsbD_setAddress _ _ hj, if_neg h1,
      if_neg h0, if_pos h, BitVec.getLsbD_ushiftRight, hsub]
  · have hfalse : (decide (12 ≤ j) && decide (j < 52)) = false := by
      simpa [Bool.and_eq_false_iff, not_and] using h
    rw [hfalse, Bool.and_false, Bool.and_false]

/-- A frame address fits the address field. -/
theorem IsFrame.and_addressMask {p : BitVec 64} (hp : IsFrame p) :
    p &&& 0x000ffffffffff000#64 = p := by
  apply BitVec.eq_of_getLsbD_eq
  intro j hj
  rw [BitVec.getLsbD_and, getLsbD_addressMask hj]
  by_cases h : 12 ≤ j ∧ j < 52
  · simp [h.1, h.2]
  · rw [hp.getLsbD_eq_false (by omega)]
    rfl

end EtaOs
