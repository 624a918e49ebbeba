import EtaOs.Library.ByteMemory
import Mathlib.Tactic.IntervalCases

/-!
# The search for the RSDP

The loop of `efi_main` over the firmware's configuration table indexes the table with `i`
and advances the table pointer as well, so its `i`-th iteration compares the GUID of entry
`2 * i` and takes the vendor table of entry `i`.  It tests the two comparisons the same way,
though `CompareGuid` gives zero for equality and `strncmp` one.

The two slips work on different tables.  Advancing the pointer twice makes the loop skip entries
and run past the end; testing the comparison the wrong way round makes it take every entry whose
GUID is another one.  The condition says on which tables the outcome is right all the same.

* `compareGuid_eq_zero_iff`, `strncmp_ne_zero_iff`: what the two helpers decide.
* `rsdpSearch`: the loop, with the entries it reads.
* `mem_read_rsdpSearch`, `rsdp_rsdpSearch`: what the loop reads and finds.
* `findsRsdp_iff`: the tables on which the loop finds the ACPI 2.0 pointer.
-/

namespace EtaOs

open ByteMemory

namespace Bootloader

/-! ## The two comparisons -/

/-- `EFI_GUID`. -/
structure EfiGuid where
  data1 : BitVec 32
  data2 : BitVec 16
  data3 : BitVec 16
  data4 : Vector (BitVec 8) 8
deriving DecidableEq

/-- The GUID as the four `INT32` it is compared by. -/
def EfiGuid.int32 (g : EfiGuid) : Fin 4 → BitVec 32
  | 0 => g.data1
  | 1 => g.data3 ++ g.data2
  | 2 => g.data4[3] ++ g.data4[2] ++ g.data4[1] ++ g.data4[0]
  | 3 => g.data4[7] ++ g.data4[6] ++ g.data4[5] ++ g.data4[4]

/-- `ACPI_20_TABLE_GUID`. -/
def acpi20TableGuid : EfiGuid :=
  ⟨0x8868e871, 0xe4f1, 0x11d3, #v[0xbc, 0x22, 0x0, 0x80, 0xc7, 0x3c, 0x88, 0x81]⟩

/-- `CompareGuid`, which calls `RtCompareGuid`. -/
def compareGuid (guid1 guid2 : EfiGuid) : BitVec 64 :=
  let g1 := guid1.int32
  let g2 := guid2.int32
  let r := g1 0 - g2 0
  let r := r ||| (g1 1 - g2 1)
  let r := r ||| (g1 2 - g2 2)
  let r := r ||| (g1 3 - g2 3)
  r.signExtend 64

/-- The loop of `strncmp` from `i` on. -/
def strncmpFrom (a b : ℕ → BitVec 8) (i : ℕ) : ℕ → BitVec 64
  | 0 => 1
  | n + 1 => if a i ≠ b i then 0 else strncmpFrom a b (i + 1) n

/-- `strncmp`. -/
def strncmp (a b : ℕ → BitVec 8) (length : ℕ) : BitVec 64 := strncmpFrom a b 0 length

theorem append_inj {n k : ℕ} {a a' : BitVec n} {b b' : BitVec k} :
    a ++ b = a' ++ b' ↔ a = a' ∧ b = b' := by
  refine ⟨fun h => ⟨?_, ?_⟩, by rintro ⟨rfl, rfl⟩; rfl⟩
  · ext i hi
    have hbit := congrArg (fun x => x.getLsbD (k + i)) h
    have hk : ¬ k + i < k := by omega
    simpa [BitVec.getLsbD_append, hi, hk] using hbit
  · ext i hi
    have hbit := congrArg (fun x => x.getLsbD i) h
    simpa [BitVec.getLsbD_append, hi] using hbit

/-- The four words determine the GUID. -/
theorem EfiGuid.int32_inj {g g' : EfiGuid} (h : ∀ k, g.int32 k = g'.int32 k) : g = g' := by
  obtain ⟨d1, d2, d3, d4⟩ := g
  obtain ⟨e1, e2, e3, e4⟩ := g'
  obtain rfl : d1 = e1 := h 0
  obtain ⟨rfl, rfl⟩ := append_inj.mp (h 1)
  obtain ⟨h321, h0⟩ := append_inj.mp (h 2)
  obtain ⟨h32, h1⟩ := append_inj.mp h321
  obtain ⟨h3, h2⟩ := append_inj.mp h32
  obtain ⟨h765, h4⟩ := append_inj.mp (h 3)
  obtain ⟨h76, h5⟩ := append_inj.mp h765
  obtain ⟨h7, h6⟩ := append_inj.mp h76
  have hd : d4 = e4 := by
    refine Vector.ext fun i hi => ?_
    interval_cases i <;> assumption
  rw [hd]

theorem signExtend_eq_zero_iff {r : BitVec 32} : r.signExtend 64 = 0 ↔ r = 0 := by
  refine ⟨fun h => ?_, by rintro rfl; rfl⟩
  ext i hi
  have hbit := congrArg (fun x => x.getLsbD i) h
  rw [BitVec.getLsbD_signExtend] at hbit
  simpa [hi, Nat.lt_trans hi (by omega : 32 < 64)] using hbit

theorem or_sub_eq_zero_iff {r a b : BitVec 32} : r ||| (a - b) = 0 ↔ r = 0 ∧ a = b := by
  refine BitVec.or_eq_zero_iff.trans (and_congr_right fun _ => ⟨fun h => ?_, ?_⟩)
  · bv_omega
  · rintro rfl
    exact BitVec.sub_self a

/-- `CompareGuid` gives zero exactly on equal GUIDs. -/
theorem compareGuid_eq_zero_iff {g g' : EfiGuid} : compareGuid g g' = 0 ↔ g = g' := by
  have h0 : g.int32 0 - g'.int32 0 = 0 ↔ g.int32 0 = g'.int32 0 := by
    constructor <;> intro h <;> bv_omega
  unfold compareGuid
  rw [signExtend_eq_zero_iff, or_sub_eq_zero_iff, or_sub_eq_zero_iff, or_sub_eq_zero_iff, h0]
  constructor
  · rintro ⟨⟨⟨h0, h1⟩, h2⟩, h3⟩
    refine EfiGuid.int32_inj fun k => ?_
    match k with
    | 0 => exact h0
    | 1 => exact h1
    | 2 => exact h2
    | 3 => exact h3
  · rintro rfl
    exact ⟨⟨⟨rfl, rfl⟩, rfl⟩, rfl⟩

theorem strncmpFrom_ne_zero_iff (a b : ℕ → BitVec 8) (i n : ℕ) :
    strncmpFrom a b i n ≠ 0 ↔ ∀ k < n, a (i + k) = b (i + k) := by
  induction n generalizing i with
  | zero => simp [strncmpFrom]
  | succ n ih =>
      rw [strncmpFrom]
      split
      next h =>
        refine ⟨fun h0 => absurd rfl h0, fun hall => absurd (hall 0 (Nat.succ_pos n)) h⟩
      next h =>
        rw [ih, Nat.forall_lt_succ_left]
        simp [Nat.add_assoc, Nat.add_comm 1, not_not.mp h]

/-- `strncmp` is not zero exactly on equal strings. -/
theorem strncmp_ne_zero_iff (a b : ℕ → BitVec 8) (n : ℕ) :
    strncmp a b n ≠ 0 ↔ ∀ k < n, a k = b k := by
  rw [strncmp, strncmpFrom_ne_zero_iff]
  simp only [Nat.zero_add]

/-! ## The loop -/

/-- `EFI_CONFIGURATION_TABLE`: one entry of the table. -/
structure ConfigurationTable where
  vendorGuid : EfiGuid
  vendorTable : Addr

/-- The variables of the loop: how many entries `config_table` has been advanced by, and
`rsdp`.  `read` lists the entries read, the latest first. -/
structure Search where
  configTable : ℕ
  rsdp : Addr
  read : List ℕ

/-- The string `"RSD PTR "`. -/
def rsdPtr (k : ℕ) : BitVec 8 :=
  [0x52, 0x53, 0x44, 0x20, 0x50, 0x54, 0x52, 0x20].getD k 0

/-- The bytes from `a` on. -/
def cString (mem : Mem) (a : Addr) (k : ℕ) : BitVec 8 := mem (a + BitVec.ofNat 64 k)

/-- One iteration.  The GUID is read at `config_table[i]`, the vendor table at
`*config_table`. -/
def searchStep (mem : Mem) (table : ℕ → ConfigurationTable) (s : Search) (i : ℕ) : Search :=
  let s := { s with read := (s.configTable + i) :: s.read }
  let s :=
    if compareGuid (table (s.configTable + i)).vendorGuid acpi20TableGuid ≠ 0 then
      let s := { s with read := s.configTable :: s.read }
      let vendorTable := (table s.configTable).vendorTable
      if strncmp rsdPtr (cString mem vendorTable) 8 ≠ 0 then { s with rsdp := vendorTable } else s
    else s
  { s with configTable := s.configTable + 1 }

/-- The search loop of `efi_main` over a table of `n` entries.  Past them `table` gives what
the memory after the table holds. -/
def rsdpSearch (mem : Mem) (table : ℕ → ConfigurationTable) (n : ℕ) : Search :=
  (List.range n).foldl (searchStep mem table) ⟨0, 0, []⟩

/-- The table at `a` starts with `"RSD PTR "`. -/
def StartsRsdPtr (mem : Mem) (a : Addr) : Prop := ∀ k < 8, cString mem a k = rsdPtr k

instance (mem : Mem) (a : Addr) : Decidable (StartsRsdPtr mem a) :=
  inferInstanceAs (Decidable (∀ k < 8, _))

/-- The entry carries the ACPI 2.0 pointer. -/
def IsRsdp (mem : Mem) (entry : ConfigurationTable) : Prop :=
  entry.vendorGuid = acpi20TableGuid ∧ StartsRsdPtr mem entry.vendorTable

/-- **The search finds the ACPI 2.0 pointer** of a table of `n` entries. -/
structure FindsRsdp (mem : Mem) (table : ℕ → ConfigurationTable) (n : ℕ) (s : Search) : Prop where
  inside : ∀ k ∈ s.read, k < n
  found : s.rsdp ≠ 0 ↔ ∃ i < n, IsRsdp mem (table i)
  vendor : s.rsdp ≠ 0 → ∃ i < n, IsRsdp mem (table i) ∧ s.rsdp = (table i).vendorTable

section Search

variable (mem : Mem) (table : ℕ → ConfigurationTable)

/-- Iteration `i` assigns `rsdp`. -/
def Assigns (i : ℕ) : Prop :=
  (table (2 * i)).vendorGuid ≠ acpi20TableGuid ∧ StartsRsdPtr mem (table i).vendorTable

theorem rsdpSearch_succ (n : ℕ) :
    rsdpSearch mem table (n + 1) = searchStep mem table (rsdpSearch mem table n) n := by
  unfold rsdpSearch
  rw [List.range_succ, List.foldl_append, List.foldl_cons, List.foldl_nil]

theorem configTable_searchStep (s : Search) (i : ℕ) :
    (searchStep mem table s i).configTable = s.configTable + 1 := by
  unfold searchStep
  dsimp only
  split
  · split <;> rfl
  · rfl

/-- After `n` iterations the pointer has been advanced by `n` entries. -/
@[simp] theorem configTable_rsdpSearch (n : ℕ) : (rsdpSearch mem table n).configTable = n := by
  induction n with
  | zero => rfl
  | succ n ih => rw [rsdpSearch_succ, configTable_searchStep, ih]

theorem strncmp_rsdPtr {a : Addr} :
    strncmp rsdPtr (cString mem a) 8 ≠ 0 ↔ StartsRsdPtr mem a := by
  rw [strncmp_ne_zero_iff]
  exact forall₂_congr fun k _ => eq_comm

theorem read_searchStep (s : Search) (i k : ℕ) : k ∈ (searchStep mem table s i).read ↔
    k = s.configTable + i ∨ k ∈ s.read ∨
      k = s.configTable ∧ (table (s.configTable + i)).vendorGuid ≠ acpi20TableGuid := by
  unfold searchStep
  simp only [ne_eq, compareGuid_eq_zero_iff]
  split
  next h => split <;> simp [h] <;> tauto
  next h => simp [h]

theorem rsdp_searchStep (s : Search) (i : ℕ) (hi : s.configTable = i) :
    (Assigns mem table i ∧ (searchStep mem table s i).rsdp = (table i).vendorTable) ∨
      (¬ Assigns mem table i ∧ (searchStep mem table s i).rsdp = s.rsdp) := by
  unfold searchStep Assigns
  simp only [ne_eq, compareGuid_eq_zero_iff, hi, ← two_mul]
  split
  next h =>
    split
    next h' => exact Or.inl ⟨⟨h, (strncmp_rsdPtr mem).mp h'⟩, rfl⟩
    next h' => exact Or.inr ⟨fun hc => h' ((strncmp_rsdPtr mem).mpr hc.2), rfl⟩
  next h => exact Or.inr ⟨fun hc => h hc.1, rfl⟩

/-- **The entries the loop reads**: the even ones up to `2 * n`, for their GUID, and those
whose double does not have the ACPI 2.0 GUID, for their vendor table. -/
theorem mem_read_rsdpSearch (n k : ℕ) : k ∈ (rsdpSearch mem table n).read ↔
    ∃ i < n, k = 2 * i ∨ k = i ∧ (table (2 * i)).vendorGuid ≠ acpi20TableGuid := by
  induction n with
  | zero => simp [rsdpSearch]
  | succ n ih =>
      rw [rsdpSearch_succ, read_searchStep, ih, configTable_rsdpSearch, ← two_mul,
        Nat.exists_lt_succ_right, or_left_comm]

/-- **What the loop finds**: the vendor table of the last iteration that assigns. -/
theorem rsdp_rsdpSearch (n : ℕ) :
    (∃ i < n, Assigns mem table i ∧ (∀ j, i < j → j < n → ¬ Assigns mem table j) ∧
      (rsdpSearch mem table n).rsdp = (table i).vendorTable) ∨
    ((∀ i < n, ¬ Assigns mem table i) ∧ (rsdpSearch mem table n).rsdp = 0) := by
  induction n with
  | zero => exact Or.inr ⟨fun i hi => absurd hi (Nat.not_lt_zero i), rfl⟩
  | succ n ih =>
      rw [rsdpSearch_succ]
      rcases rsdp_searchStep mem table _ n (configTable_rsdpSearch mem table n) with
        ⟨hn, heq⟩ | ⟨hn, heq⟩
      · exact Or.inl ⟨n, Nat.lt_succ_self n, hn, fun j h h' => by omega, heq⟩
      · rw [heq]
        rcases ih with ⟨i, hi, hassign, hlast, hrsdp⟩ | ⟨hnone, hrsdp⟩
        · refine Or.inl ⟨i, by omega, hassign, fun j hij hj => ?_, hrsdp⟩
          rcases Nat.lt_succ_iff_lt_or_eq.mp hj with h | rfl
          · exact hlast j hij h
          · exact hn
        · refine Or.inr ⟨fun i hi => ?_, hrsdp⟩
          rcases Nat.lt_succ_iff_lt_or_eq.mp hi with h | rfl
          · exact hnone i h
          · exact hn

/-- With two entries or more the loop reads past the table. -/
theorem not_inside_rsdpSearch {n : ℕ} (hn : 2 ≤ n) :
    ¬ ∀ k ∈ (rsdpSearch mem table n).read, k < n := by
  intro h
  have hlt := h (2 * (n - 1)) ((mem_read_rsdpSearch mem table n _).mpr
    ⟨n - 1, by omega, Or.inl rfl⟩)
  omega

/-- **The tables on which the search finds the ACPI 2.0 pointer**: the empty one, and those of
one entry that has no RSDP to offer. -/
theorem findsRsdp_iff (n : ℕ) : FindsRsdp mem table n (rsdpSearch mem table n) ↔
    n = 0 ∨ n = 1 ∧ (¬ StartsRsdPtr mem (table 0).vendorTable ∨
      (table 0).vendorGuid ≠ acpi20TableGuid ∧ (table 0).vendorTable = 0) := by
  match n with
  | 0 =>
      have hrsdp : (rsdpSearch mem table 0).rsdp = 0 := rfl
      refine iff_of_true ⟨by simp [rsdpSearch], by simp [hrsdp], fun h => absurd hrsdp h⟩
        (Or.inl rfl)
  | 1 =>
      have hread : ∀ k ∈ (rsdpSearch mem table 1).read, k < 1 := by
        intro k hk
        obtain ⟨i, hi, h⟩ := (mem_read_rsdpSearch mem table 1 k).mp hk
        omega
      simp only [Nat.one_ne_zero, true_and, false_or]
      rcases rsdp_rsdpSearch mem table 1 with ⟨i, hi, ⟨hguid, hstart⟩, -, hrsdp⟩ | ⟨hnone, hrsdp⟩
      · -- the only entry is taken although its GUID is another one
        obtain rfl : i = 0 := by omega
        have hno : ¬ ∃ i < 1, IsRsdp mem (table i) := by
          rintro ⟨i, hi, h⟩
          obtain rfl : i = 0 := by omega
          exact hguid h.1
        constructor
        · intro h
          refine Or.inr ⟨hguid, ?_⟩
          rw [← hrsdp]
          by_contra hne
          exact hno (h.found.mp hne)
        · rintro (h | ⟨-, hzero⟩)
          · exact absurd hstart h
          · rw [hzero] at hrsdp
            exact ⟨hread, iff_of_false (fun h => h hrsdp) hno, fun h => absurd hrsdp h⟩
      · constructor
        · intro h
          refine Or.inl fun hstart => ?_
          refine h.found.mpr ⟨0, by omega, ?_, hstart⟩ hrsdp
          by_contra hguid
          exact hnone 0 (by omega) ⟨hguid, hstart⟩
        · intro h
          have hno : ¬ ∃ i < 1, IsRsdp mem (table i) := by
            rintro ⟨i, hi, hguid, hstart⟩
            obtain rfl : i = 0 := by omega
            rcases h with h | ⟨h, -⟩
            · exact h hstart
            · exact h hguid
          exact ⟨hread, iff_of_false (fun h => h hrsdp) hno, fun h => absurd hrsdp h⟩
  | n + 2 =>
      refine iff_of_false (fun h => ?_) (by omega)
      exact not_inside_rsdpSearch mem table (by omega) h.inside

end Search

/-- A table whose only entry is the ACPI 2.0 pointer: the search leaves `rsdp` at NULL. -/
theorem not_findsRsdp_single :
    ¬ FindsRsdp (fun a => rsdPtr (a - 0x1000).toNat) (fun _ => ⟨acpi20TableGuid, 0x1000⟩) 1
      (rsdpSearch (fun a => rsdPtr (a - 0x1000).toNat)
        (fun _ => ⟨acpi20TableGuid, 0x1000⟩) 1) := by
  intro h
  exact h.found.mpr ⟨0, by decide, rfl, by decide⟩ rfl

end Bootloader

end EtaOs
