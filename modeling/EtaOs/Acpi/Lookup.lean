import EtaOs.Acpi.Tables
import EtaOs.Library.Emitting

/-!
# The lookup of an ACPI table

The search reads whole entries behind the header only, also for a table that is shorter than
its header.  It finds the first table with a signature of ASCII characters.  A byte from 128 on
is a negative `char`, and no `unsigned char` of a table equals it.

Two things are asked of the search, where it reads and what it returns.  The first is right for
every table, and could not be said of the answer alone, so a record of the reads is kept beside
it.  The second is right for every signature that a firmware would use.

* `findTableLogged`: the search with a record of what it reads.
* `firstTable`: the table to be found.
* `mem_entries_findTableLogged`: the entries the search reads.
* `findsFirst_iff`: the tables and signatures for which the search is right.
-/

namespace EtaOs

open ByteMemory Emitting Prog

namespace ACPI

/-! ## The search with its reads -/

/-- What the search reads: the length of the table, an entry, or a byte of a signature. -/
inductive TableRead
  | length (sdtHeader : Addr)
  | entry (a : Addr)
  | signature (a : Addr)

/-- Programs that read tables. -/
abbrev TableProg := Prog Mem TableRead

/-- A read. -/
def readTable {α : Type} (read : Mem → Addr → α) (event : Addr → TableRead) (a : Addr) :
    TableProg α := do
  emit (event a)
  return read (← get) a

/-- The inner loop of `find_table`. -/
def signatureLoopLogged (header : Addr) (signature : ℕ → BitVec 8) (j : ℕ) : ℕ → TableProg Bool
  | 0 => return false
  | n + 1 => do
      let byte ← readTable (fun mem a => mem a) .signature (header + BitVec.ofNat 64 j)
      if (byte.toNat : ℤ) ≠ (signature j).toInt then return false
      else if j = 3 then return true
      else signatureLoopLogged header signature (j + 1) n

/-- The loop of `find_table` from entry `i` on, with the entries left to look at. -/
def findTableFromLogged (sdtHeader : Addr) (signature : ℕ → BitVec 8) (i : BitVec 32) :
    ℕ → TableProg Addr
  | 0 => return 0
  | n + 1 => do
      let newSdtHeader ←
        readTable load64 .entry (sdtHeader + sdtHeaderSize + (i * 8).signExtend 64)
      if (← signatureLoopLogged newSdtHeader signature 0 4) = true then return newSdtHeader
      else findTableFromLogged sdtHeader signature (i + 1) n

/-- `find_table`. -/
def findTableLogged (sdtHeader : Addr) (signature : ℕ → BitVec 8) : TableProg Addr := do
  let entries ← readTable sdtEntries .length sdtHeader
  findTableFromLogged sdtHeader signature 0 entries.toInt.toNat

@[simp] theorem run_readTable {α : Type} (read : Mem → Addr → α) (event : Addr → TableRead)
    (a : Addr) (mem : Mem) :
    (readTable read event a).run mem = ⟨read mem a, mem, [event a]⟩ := rfl

section

variable {mem : Mem} {sdtHeader : Addr} {signature : ℕ → BitVec 8}

/-- The comparison answers as without the record, and reads no entry. -/
theorem signatureLoopLogged_spec (mem : Mem) (header : Addr) (signature : ℕ → BitVec 8) (n j : ℕ) :
    ∃ es, (signatureLoopLogged header signature j n).run mem =
      ⟨signatureLoop mem header signature j n, mem, es⟩ ∧ ∀ a, .entry a ∉ es := by
  induction n generalizing j with
  | zero => exact ⟨[], rfl, fun _ => List.not_mem_nil⟩
  | succ n ih =>
      have hread : ∀ a, TableRead.entry a ∉ [TableRead.signature (header + BitVec.ofNat 64 j)] := by
        simp
      unfold signatureLoopLogged signatureLoop
      rw [run_bind, run_readTable]
      dsimp only
      split
      next => exact ⟨_, by rw [run_pure, List.append_nil], hread⟩
      next =>
        split
        next => exact ⟨_, by rw [run_pure, List.append_nil], hread⟩
        next =>
          obtain ⟨es, hrun, hes⟩ := ih (j + 1)
          rw [hrun]
          refine ⟨_, rfl, fun a => ?_⟩
          rw [List.mem_append, not_or]
          exact ⟨hread a, hes a⟩

/-- **The search answers as without the record**, and reads entries from `i` on. -/
theorem findTableFromLogged_spec (mem : Mem) (sdtHeader : Addr) (signature : ℕ → BitVec 8)
    (n i : ℕ) :
    ∃ es, (findTableFromLogged sdtHeader signature (BitVec.ofNat 32 i) n).run mem =
      ⟨findTableFrom mem sdtHeader signature (BitVec.ofNat 32 i) n, mem, es⟩ ∧
        ∀ a, .entry a ∈ es → ∃ k < i + n,
          a = sdtHeader + sdtHeaderSize + (BitVec.ofNat 32 k * 8).signExtend 64 := by
  induction n generalizing i with
  | zero => exact ⟨[], rfl, fun _ h => absurd h List.not_mem_nil⟩
  | succ n ih =>
      have hnext : BitVec.ofNat 32 i + 1 = BitVec.ofNat 32 (i + 1) := (BitVec.ofNat_add _ _).symm
      obtain ⟨es, hmatch, hes⟩ := signatureLoopLogged_spec mem
        (sdtEntry mem sdtHeader (BitVec.ofNat 32 i)) signature 4 0
      have hrun := hmatch
      unfold sdtEntry at hrun
      unfold findTableFromLogged findTableFrom
      rw [run_bind, run_readTable, run_bind, hrun, hnext]
      dsimp only
      unfold signatureMatches sdtEntry
      split
      next =>
        refine ⟨_, by rw [run_pure, List.append_nil], fun a ha => ⟨i, by omega, ?_⟩⟩
        rcases List.mem_append.mp ha with ha | ha
        · exact TableRead.entry.inj (List.mem_singleton.mp ha)
        · exact absurd ha (hes a)
      next =>
        obtain ⟨es', hrest, hes'⟩ := ih (i + 1)
        rw [hrest]
        refine ⟨_, rfl, fun a ha => ?_⟩
        rcases List.mem_append.mp ha with ha | ha
        · exact ⟨i, by omega, TableRead.entry.inj (List.mem_singleton.mp ha)⟩
        · rcases List.mem_append.mp ha with ha | ha
          · exact absurd ha (hes a)
          · obtain ⟨k, hk, rfl⟩ := hes' a ha
            exact ⟨k, by omega, rfl⟩

theorem findTableLogged_spec (mem : Mem) (sdtHeader : Addr) (signature : ℕ → BitVec 8) :
    ∃ es, (findTableLogged sdtHeader signature).run mem =
      ⟨findTable mem sdtHeader signature, mem, es⟩ ∧
        ∀ a, .entry a ∈ es → ∃ k < (sdtEntries mem sdtHeader).toInt.toNat,
          a = sdtHeader + sdtHeaderSize + (BitVec.ofNat 32 k * 8).signExtend 64 := by
  obtain ⟨es, hrun, hes⟩ := findTableFromLogged_spec mem sdtHeader signature
    (sdtEntries mem sdtHeader).toInt.toNat 0
  refine ⟨.length sdtHeader :: es, ?_, fun a ha => ?_⟩
  · unfold findTableLogged
    rw [run_bind, run_readTable]
    dsimp only
    exact congrArg
      (fun o => Outcome.mk o.value o.state (TableRead.length sdtHeader :: o.events)) hrun
  · rcases List.mem_cons.mp ha with ha | ha
    · exact absurd ha (by simp)
    · obtain ⟨k, hk, heq⟩ := hes a ha
      exact ⟨k, by omega, heq⟩

/-! ## The table to be found -/

/-- The whole entries behind the header. -/
def wholeEntries (mem : Mem) (sdtHeader : Addr) : ℕ :=
  ((SDTHeader.length mem sdtHeader).toNat - 36) / 8

/-- The address of entry `k`. -/
def entryAt (sdtHeader : Addr) (k : ℕ) : Addr := sdtHeader + BitVec.ofNat 64 (36 + 8 * k)

/-- The four bytes of the table's signature are those given. -/
def HasSignature (mem : Mem) (signature : ℕ → BitVec 8) (header : Addr) : Prop :=
  ∀ j < 4, mem (header + BitVec.ofNat 64 j) = signature j

instance (mem : Mem) (signature : ℕ → BitVec 8) (header : Addr) :
    Decidable (HasSignature mem signature header) := Nat.decidableBallLT 4 _

/-- **The table to be found**: that of the first entry whose table has the signature, or 0. -/
def firstTable (mem : Mem) (sdtHeader : Addr) (signature : ℕ → BitVec 8) : Addr :=
  (((List.range (wholeEntries mem sdtHeader)).map fun k => load64 mem (entryAt sdtHeader k)).find?
    (HasSignature mem signature ·)).getD 0

/-- A `char` equals an `unsigned char` when it is not negative and the bytes are the same. -/
theorem toNat_eq_toInt_iff (b c : BitVec 8) : (b.toNat : ℤ) = c.toInt ↔ b = c ∧ c.toNat < 128 := by
  have hb := b.isLt
  have hc := c.isLt
  rw [BitVec.toInt_eq_toNat_cond, ← BitVec.toNat_inj]
  split <;> omega

/-- **The comparison** accepts the tables with the signature, if it is one of ASCII characters. -/
theorem signatureMatches_iff (header : Addr) : signatureMatches mem header signature = true ↔
    HasSignature mem signature header ∧ ∀ j < 4, (signature j).toNat < 128 := by
  have hloop : signatureMatches mem header signature = true ↔
      ∀ j < 4, ((mem (header + BitVec.ofNat 64 j)).toNat : ℤ) = (signature j).toInt := by
    simp only [Nat.forall_lt_succ_left, Nat.not_lt_zero, IsEmpty.forall_iff, implies_true, and_true]
    unfold signatureMatches
    simp only [signatureLoop]
    split_ifs <;> simp_all
  rw [hloop, HasSignature, ← forall₂_and]
  exact forall₂_congr fun j _ => toNat_eq_toInt_iff _ _

theorem signExtend_mul_eight {k : ℕ} (hk : k < 2 ^ 28) :
    (BitVec.ofNat 32 k * 8).signExtend 64 = BitVec.ofNat 64 (8 * k) := by
  have htoNat : (BitVec.ofNat 32 k * 8).toNat = 8 * k := by
    rw [BitVec.toNat_mul, BitVec.toNat_ofNat, show (8 : BitVec 32).toNat = 8 from rfl]
    omega
  have hmsb : (BitVec.ofNat 32 k * 8).msb = false := by
    rw [BitVec.msb_eq_false_iff_two_mul_lt]
    omega
  apply BitVec.eq_of_toNat_eq
  rw [BitVec.signExtend_eq_setWidth_of_msb_false hmsb, BitVec.toNat_setWidth, htoNat,
    BitVec.toNat_ofNat]

/-- Entry `k` of the loop is entry `k` of the table. -/
theorem loopEntry_eq {k : ℕ} (hk : k < 2 ^ 28) (sdtHeader : Addr) :
    sdtHeader + sdtHeaderSize + (BitVec.ofNat 32 k * 8).signExtend 64 = entryAt sdtHeader k := by
  rw [signExtend_mul_eight hk, BitVec.add_assoc, entryAt, BitVec.ofNat_add]
  rfl

/-- The `int` counts the entries of any table. -/
theorem toNat_sdtEntries (mem : Mem) (sdtHeader : Addr) :
    (sdtEntries mem sdtHeader).toInt.toNat = wholeEntries mem sdtHeader :=
  toNat_entries _ (by decide) (Or.inl rfl)

section Length

variable (hlen : (SDTHeader.length mem sdtHeader).toNat < 2 ^ 31)

include hlen

theorem wholeEntries_lt {k : ℕ} (hk : k < wholeEntries mem sdtHeader) : k < 2 ^ 28 := by
  unfold wholeEntries at hk
  omega

/-- **The search** compares the entries of the table in order. -/
theorem findTable_eq : findTable mem sdtHeader signature =
    (((List.range (wholeEntries mem sdtHeader)).map fun k =>
      load64 mem (entryAt sdtHeader k)).find? (signatureMatches mem · signature)).getD 0 := by
  refine (findTableFrom_eq mem sdtHeader signature 0 _).trans ?_
  rw [toNat_sdtEntries, ← List.range_eq_range']
  congr 2
  refine List.map_congr_left fun k hk => ?_
  rw [sdtEntry, loopEntry_eq (wholeEntries_lt hlen (List.mem_range.mp hk))]

/-- **The entries read** are whole entries of the table. -/
theorem mem_entries_findTableLogged {a : Addr}
    (ha : .entry a ∈ ((findTableLogged sdtHeader signature).run mem).events) :
    ∃ k < wholeEntries mem sdtHeader, a = entryAt sdtHeader k := by
  obtain ⟨es, hrun, hes⟩ := findTableLogged_spec mem sdtHeader signature
  rw [hrun] at ha
  obtain ⟨k, hk, rfl⟩ := hes a ha
  rw [toNat_sdtEntries] at hk
  exact ⟨k, hk, loopEntry_eq (wholeEntries_lt hlen hk) sdtHeader⟩

end Length

/-- **The search is right**: it reads whole entries between the header and the end of the table
only, and answers the table to be found. -/
structure FindsFirst (mem : Mem) (sdtHeader : Addr) (signature : ℕ → BitVec 8) : Prop where
  reads : ∀ a, .entry a ∈ ((findTableLogged sdtHeader signature).run mem).events →
    ∃ offset, 36 ≤ offset ∧ offset + 8 ≤ (SDTHeader.length mem sdtHeader).toNat ∧
      a = sdtHeader + BitVec.ofNat 64 offset
  value : ((findTableLogged sdtHeader signature).run mem).value = firstTable mem sdtHeader signature

/-- **The searches that are right**: those for a signature of ASCII characters, and those for a
signature that no table has. -/
theorem findsFirst_iff (mem : Mem) (sdtHeader : Addr) (signature : ℕ → BitVec 8)
    (hlen : (SDTHeader.length mem sdtHeader).toNat < 2 ^ 31) :
    FindsFirst mem sdtHeader signature ↔
      (∀ j < 4, (signature j).toNat < 128) ∨ firstTable mem sdtHeader signature = 0 := by
  have hreads : ∀ a, .entry a ∈ ((findTableLogged sdtHeader signature).run mem).events →
      ∃ offset, 36 ≤ offset ∧ offset + 8 ≤ (SDTHeader.length mem sdtHeader).toNat ∧
        a = sdtHeader + BitVec.ofNat 64 offset := by
    intro a ha
    obtain ⟨k, hk, rfl⟩ := mem_entries_findTableLogged hlen ha
    unfold wholeEntries at hk
    exact ⟨36 + 8 * k, by omega, by omega, rfl⟩
  have hvalue : FindsFirst mem sdtHeader signature ↔
      findTable mem sdtHeader signature = firstTable mem sdtHeader signature := by
    obtain ⟨es, hrun, -⟩ := findTableLogged_spec mem sdtHeader signature
    have hsame : ((findTableLogged sdtHeader signature).run mem).value =
        findTable mem sdtHeader signature := by rw [hrun]
    rw [← hsame]
    exact ⟨fun h => h.value, fun h => ⟨hreads, h⟩⟩
  rw [hvalue]
  by_cases hascii : ∀ j < 4, (signature j).toNat < 128
  · refine iff_of_true ?_ (Or.inl hascii)
    rw [findTable_eq hlen, firstTable]
    have hsame : ∀ t, signatureMatches mem t signature = decide (HasSignature mem signature t) :=
      fun t => Bool.eq_iff_iff.mpr
        ((signatureMatches_iff t).trans ((and_iff_left hascii).trans decide_eq_true_iff.symm))
    simp only [hsame]
  · have hnone : findTable mem sdtHeader signature = 0 := by
      have hfind : ∀ l : List Addr, l.find? (signatureMatches mem · signature) = none := fun l =>
        List.find?_eq_none.mpr fun t _ hmatch => hascii ((signatureMatches_iff t).mp hmatch).2
      rw [findTable_eq hlen, hfind, Option.getD_none]
    rw [hnone, eq_comm]
    exact (or_iff_right hascii).symm

end

/-- A table at 4 KiB with one entry, for a table at 8 KiB whose signature is four times `c`. -/
def oneEntry (c : BitVec 8) : Mem := fun a =>
  if a = 0x1004 then 44 else if a = 0x1025 then 0x20
  else if 0x2000 ≤ a ∧ a < 0x2004 then c else 0

/-- A table at 4 KiB with three entries, for tables at 8, 12 and 16 KiB; the second and the third
have the signature `"AAAA"`. -/
def threeEntries : Mem := fun a =>
  if a = 0x1004 then 60 else if a = 0x1025 then 0x20 else if a = 0x102d then 0x30
  else if a = 0x1035 then 0x40 else if 0x2000 ≤ a ∧ a < 0x2004 then 0x42
  else if 0x3000 ≤ a ∧ a < 0x3004 then 0x41 else if 0x4000 ≤ a ∧ a < 0x4004 then 0x41 else 0

/-- The second table is the one that is found. -/
theorem findsFirst_threeEntries : FindsFirst threeEntries 0x1000 (fun _ => 0x41) ∧
    firstTable threeEntries 0x1000 (fun _ => 0x41) = 0x3000 :=
  ⟨(findsFirst_iff _ _ _ (by decide)).mpr (Or.inl fun _ _ => by decide), by decide +kernel⟩

/-- The table with a signature of bytes 128 is not. -/
theorem not_findsFirst_oneEntry : ¬ FindsFirst (oneEntry 0x80) 0x1000 fun _ => 0x80 := by
  intro h
  exact absurd h.value (by decide +kernel)

end ACPI

end EtaOs
