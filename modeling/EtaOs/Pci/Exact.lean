import EtaOs.Pci.Enumeration

/-!
# What the PCI walk reports

What the kernel finds out about the devices of a machine is what it prints in this walk, so the
walk is exact when it reports every function that is there, and each of them once.  The expected
list is written from the specification of the bus, without a look at the code: every segment of the
table, every bus of the segment, every device that answers on it, and its functions.

The two lists are compared segment by segment, as permutations, with the lemmas of
`Library/Visits.lean`.  The walk leaves out the last bus of a segment, and a whole bus when nothing
answers as its device 0.  So it is exact just where nothing is there to be missed, and the second
part of the result says which devices are missed otherwise.

* `expected`: the functions to be reported, segment by segment.
* `reports_enumerateConfig`: what one segment reports.
* `Reached`: every device of the segment is on a bus the walk goes through.
* `enumeration_exact_iff`: the machines on which the walk is exact.
-/

namespace EtaOs

open ByteMemory ACPI List

namespace PCI

/-- The addresses reported. -/
def reports (events : List PciEvent) : List Addr :=
  events.filterMap fun
    | .map _ => none
    | .report functionAddr _ => some functionAddr

/-- The page of a function. -/
def functionAddr (baseAddr : BitVec 64) (bus device function : ℕ) : Addr :=
  baseAddr + BitVec.ofNat 64 bus <<< 20 + BitVec.ofNat 64 device <<< 15 +
    BitVec.ofNat 64 function <<< 12

section

variable (mem : Mem)

/-- The functions to be reported of a bus: those of the devices whose function 0 is there. -/
def expectedBus (baseAddr : BitVec 64) (bus : ℕ) : List Addr :=
  (range 32).flatMap fun device =>
    if Present mem (functionAddr baseAddr bus device 0) then
      ((range 8).map (functionAddr baseAddr bus device)).filter (Present mem ·)
    else []

/-- The functions to be reported of a segment: those of every bus up to the last. -/
def expectedConfig (config : Addr) : List Addr :=
  (range' (DeviceConfig.startBus mem config).toNat
    ((DeviceConfig.endBus mem config).toNat + 1 - (DeviceConfig.startBus mem config).toNat)).flatMap
    (expectedBus mem (DeviceConfig.baseAddr mem config))

/-- The segments of the table. -/
def segments (mcfg : Addr) : ℕ := ((SDTHeader.length mem mcfg).toNat - 44) / 16

/-- **The functions to be reported.** -/
def expected (mcfg : Addr) : List Addr :=
  (range (segments mem mcfg)).flatMap fun i => expectedConfig mem (deviceConfig mcfg i)

end

/-! ## One bus -/

section

variable {mem : Mem}

theorem reports_cons_map (page : Addr) (events : List PciEvent) :
    reports (.map page :: events) = reports events := rfl

theorem reports_flatMap {α : Type} (l : List α) (f : α → List PciEvent) :
    reports (l.flatMap f) = l.flatMap fun a => reports (f a) := filterMap_flatMap

/-- The two tests of a device identifier are the test of presence. -/
theorem ite_present {α : Type} (a : Addr) (x : List α) :
    (if (deviceHeader mem a).deviceId = 0 then []
      else if (deviceHeader mem a).deviceId = 0xffff then [] else x) =
      if Present mem a then x else [] := by
  unfold Present
  split
  next h => exact (if_neg fun hc => hc.1 h).symm
  next h =>
    split
    next h' => exact (if_neg fun hc => hc.2 h').symm
    next h' => exact (if_pos ⟨h, h'⟩).symm

theorem reports_enumerateFunction (deviceAddr function : BitVec 64) :
    reports (enumerateFunction mem deviceAddr function) =
      if Present mem (deviceAddr + function <<< 12) then [deviceAddr + function <<< 12]
      else [] := by
  unfold enumerateFunction
  dsimp only
  rw [reports_cons_map, ite_present]
  split <;> rfl

theorem functionAddr_zero (baseAddr : BitVec 64) (bus device : ℕ) :
    functionAddr baseAddr bus device 0 =
      baseAddr + BitVec.ofNat 64 bus <<< 20 + BitVec.ofNat 64 device <<< 15 := by
  unfold functionAddr
  simp

theorem functionAddr_zero_zero (baseAddr : BitVec 64) (bus : ℕ) :
    functionAddr baseAddr bus 0 0 = baseAddr + BitVec.ofNat 64 bus <<< 20 := by
  rw [functionAddr_zero]
  simp

/-- **One bus**: it is given up when its device 0 is absent. -/
theorem reports_enumerateBus (baseAddr : BitVec 64) (bus : ℕ) :
    reports (enumerateBus mem baseAddr (BitVec.ofNat 64 bus)) =
      if Present mem (functionAddr baseAddr bus 0 0) then expectedBus mem baseAddr bus else [] := by
  unfold enumerateBus
  dsimp only
  rw [reports_cons_map, ite_present, functionAddr_zero_zero]
  split
  next =>
    rw [reports_flatMap]
    refine flatMap_congr fun device _ => ?_
    unfold enumerateDevice
    dsimp only
    rw [reports_cons_map, ite_present, functionAddr_zero]
    split
    next =>
      rw [reports_flatMap, ← Visits.flatMap_ite_singleton]
      exact flatMap_congr fun function _ => reports_enumerateFunction _ _
    next => rfl
  next => rfl

theorem expectedBus_eq_nil_iff (baseAddr : BitVec 64) (bus : ℕ) :
    expectedBus mem baseAddr bus = [] ↔
      ∀ device < 32, ¬ Present mem (functionAddr baseAddr bus device 0) := by
  unfold expectedBus
  rw [flatMap_eq_nil_iff]
  refine forall_congr' fun device => ?_
  rw [mem_range]
  refine imp_congr_right fun _ => ?_
  split
  next h =>
    -- function 0 itself is to be reported
    refine iff_of_false (fun hnil => ?_) (not_not.mpr h)
    have hmem : functionAddr baseAddr bus device 0 ∈
        ((range 8).map (functionAddr baseAddr bus device)).filter (Present mem ·) :=
      mem_filter.mpr ⟨mem_map.mpr ⟨0, by decide, rfl⟩, decide_eq_true h⟩
    rw [hnil] at hmem
    exact not_mem_nil hmem
  next h => exact iff_of_true rfl h

/-! ## One segment -/

/-- The functions reported of a bus up to the last. -/
def reportedBus (mem : Mem) (config : Addr) (bus : ℕ) : List Addr :=
  if bus < (DeviceConfig.endBus mem config).toNat ∧
      Present mem (functionAddr (DeviceConfig.baseAddr mem config) bus 0 0) then
    expectedBus mem (DeviceConfig.baseAddr mem config) bus
  else []

/-- **One segment**: the last bus is left out. -/
theorem reports_enumerateConfig (config : Addr) :
    reports (enumerateConfig mem config) =
      (range' (DeviceConfig.startBus mem config).toNat ((DeviceConfig.endBus mem config).toNat + 1 -
        (DeviceConfig.startBus mem config).toNat)).flatMap (reportedBus mem config) := by
  unfold enumerateConfig
  rw [reports_flatMap]
  have hbus : ∀ bus ∈ range' (DeviceConfig.startBus mem config).toNat
      ((DeviceConfig.endBus mem config).toNat - (DeviceConfig.startBus mem config).toNat),
      reports (enumerateBus mem (DeviceConfig.baseAddr mem config) (BitVec.ofNat 64 bus)) =
        reportedBus mem config bus := by
    intro bus hbus
    have hrange := mem_range'_1.mp hbus
    have hlt : bus < (DeviceConfig.endBus mem config).toNat := by omega
    rw [reports_enumerateBus]
    exact if_congr (and_iff_right hlt).symm rfl rfl
  rw [flatMap_congr hbus]
  rcases Nat.lt_or_ge (DeviceConfig.endBus mem config).toNat
    (DeviceConfig.startBus mem config).toNat with h | h
  · rw [Nat.sub_eq_zero_of_le h, Nat.sub_eq_zero_of_le (Nat.le_of_lt h)]
  · have hlast : (DeviceConfig.startBus mem config).toNat +
        ((DeviceConfig.endBus mem config).toNat - (DeviceConfig.startBus mem config).toNat) =
        (DeviceConfig.endBus mem config).toNat := by omega
    have hnil : reportedBus mem config (DeviceConfig.endBus mem config).toNat = [] :=
      if_neg fun hc => Nat.lt_irrefl _ hc.1
    rw [Nat.succ_sub h, range'_1_concat, flatMap_append, hlast, flatMap_singleton, hnil,
      append_nil]

/-- **The walk reaches every device of the segment**: none is on the last bus, and none on a bus
whose device 0 is absent. -/
def Reached (mem : Mem) (config : Addr) : Prop :=
  ∀ bus, (DeviceConfig.startBus mem config).toNat ≤ bus →
    bus ≤ (DeviceConfig.endBus mem config).toNat →
    ∀ device < 32, Present mem (functionAddr (DeviceConfig.baseAddr mem config) bus device 0) →
      bus < (DeviceConfig.endBus mem config).toNat ∧
        Present mem (functionAddr (DeviceConfig.baseAddr mem config) bus 0 0)

theorem reportedBus_sublist (config : Addr) (bus : ℕ) :
    reportedBus mem config bus <+ expectedBus mem (DeviceConfig.baseAddr mem config) bus := by
  unfold reportedBus
  split
  · exact Sublist.refl _
  · exact nil_sublist _

theorem reportedBus_eq_iff (config : Addr) (bus : ℕ) :
    reportedBus mem config bus = expectedBus mem (DeviceConfig.baseAddr mem config) bus ↔
      ∀ device < 32, Present mem (functionAddr (DeviceConfig.baseAddr mem config) bus device 0) →
        bus < (DeviceConfig.endBus mem config).toNat ∧
          Present mem (functionAddr (DeviceConfig.baseAddr mem config) bus 0 0) := by
  unfold reportedBus
  split
  next h => exact iff_of_true rfl fun _ _ _ => h
  next h =>
    rw [eq_comm, expectedBus_eq_nil_iff]
    exact forall₂_congr fun device _ => ⟨fun hn hp => absurd hp hn, fun hn hp => h (hn hp)⟩

/-- A segment's functions are all reported exactly when the walk reaches its devices. -/
theorem reports_perm_expectedConfig_iff (config : Addr) :
    reports (enumerateConfig mem config) ~ expectedConfig mem config ↔ Reached mem config := by
  rw [reports_enumerateConfig]
  unfold expectedConfig Reached
  rw [Visits.flatMap_perm_iff fun bus _ => reportedBus_sublist config bus]
  refine forall_congr' fun bus => ?_
  rw [mem_range'_1, reportedBus_eq_iff]
  constructor
  · exact fun h hlo hhi => h ⟨hlo, by omega⟩
  · exact fun h hbus => h hbus.1 (by omega)

/-! ## The table -/

/-- The `int` counts the segments of any table. -/
theorem toNat_mcfgEntries (mcfg : Addr) :
    (mcfgEntries mem mcfg).toInt.toNat = segments mem mcfg :=
  toNat_entries _ (by decide) (Or.inr rfl)

/-- **Enumeration** reports exactly the functions to be reported when the walk reaches every
device of every segment. -/
theorem reports_perm_expected_iff (mcfg : Addr) :
    reports (enumeratePci mem mcfg) ~ expected mem mcfg ↔
      ∀ i < segments mem mcfg, Reached mem (deviceConfig mcfg i) := by
  have hsub : ∀ config : Addr,
      reports (enumerateConfig mem config) <+ expectedConfig mem config := by
    intro config
    rw [reports_enumerateConfig]
    exact Sublist.flatMap_right _ fun bus _ => reportedBus_sublist config bus
  unfold enumeratePci expected
  rw [reports_flatMap, toNat_mcfgEntries, Visits.flatMap_perm_iff fun i _ => hsub _]
  refine forall_congr' fun i => ?_
  rw [mem_range, ← reports_perm_expectedConfig_iff]
  exact imp_congr_right fun _ => ⟨Perm.of_eq, fun h => (hsub _).eq_of_length h.length_eq⟩

/-- A table enumerates nothing when none of its segments has a bus before the last. -/
theorem enumeratePci_eq_nil_iff (mcfg : Addr) :
    enumeratePci mem mcfg = [] ↔ ∀ i < segments mem mcfg,
      (DeviceConfig.endBus mem (deviceConfig mcfg i)).toNat ≤
        (DeviceConfig.startBus mem (deviceConfig mcfg i)).toNat := by
  unfold enumeratePci enumerateConfig
  rw [toNat_mcfgEntries, flatMap_eq_nil_iff]
  refine forall_congr' fun i => ?_
  rw [mem_range]
  refine imp_congr_right fun _ => ?_
  rw [flatMap_eq_nil_iff]
  constructor
  · intro h
    by_contra hlt
    exact absurd (h _ (mem_range'_1.mpr ⟨le_refl _, by omega⟩)) (cons_ne_nil _ _)
  · intro h bus hbus
    have hrange := mem_range'_1.mp hbus
    omega

/-- **The machines on which the walk is exact**: for a table that is there, every device is on a
bus the walk goes through; for a missing one, the bytes at address 0, read as a table, have no
segment with a bus before its last. -/
theorem enumeration_exact_iff (mem : Mem) (rsdp : Addr) :
    (∀ mcfg, reports (enumeratePci mem mcfg) ~ expected mem mcfg ↔
      ∀ i < segments mem mcfg, Reached mem (deviceConfig mcfg i)) ∧
    (¬ HasTable mem (RSDP2.xsdtAdrr mem rsdp) mcfgSignature →
      (prepareAcpi mem rsdp = [] ↔ ∀ i < segments mem 0,
        (DeviceConfig.endBus mem (deviceConfig 0 i)).toNat ≤
          (DeviceConfig.startBus mem (deviceConfig 0 i)).toNat)) := by
  refine ⟨reports_perm_expected_iff, fun h => ?_⟩
  unfold prepareAcpi
  dsimp only
  rw [findTable_eq_zero h]
  exact enumeratePci_eq_nil_iff 0

end

/-- A root table at 4 KiB with two entries, for a table `"APIC"` at 8 KiB and a table `"HPET"` at
12 KiB.  The pointer to the root table is at address 24. -/
def noMcfg : Mem := fun a =>
  if a = 25 then 0x10 else if a = 0x1004 then 52 else if a = 0x1025 then 0x20
  else if a = 0x102d then 0x30 else if a = 0x2000 then 0x41 else if a = 0x2001 then 0x50
  else if a = 0x2002 then 0x49 else if a = 0x2003 then 0x43 else if a = 0x3000 then 0x48
  else if a = 0x3001 then 0x50 else if a = 0x3002 then 0x45 else if a = 0x3003 then 0x54 else 0

/-- With entries in the root table, but none for `"MCFG"`, nothing is enumerated. -/
theorem prepareAcpi_noMcfg : prepareAcpi noMcfg 0 = [] := by
  have hmissing : ¬ HasTable noMcfg (RSDP2.xsdtAdrr noMcfg 0) mcfgSignature := by
    have hentries : ∀ k < 2, signatureMatches noMcfg
        (sdtEntry noMcfg 0x1000 (BitVec.ofNat 32 k)) mcfgSignature = false := by decide +kernel
    rintro ⟨k, hk, hmatch⟩
    exact Bool.false_ne_true ((hentries k hk).symm.trans hmatch)
  exact ((enumeration_exact_iff noMcfg 0).2 hmissing).mpr fun _ hi =>
    absurd hi (Nat.not_lt_zero _)

/-- A table at 4 KiB with one segment of the single bus 0, whose device 0 is there. -/
def oneBus : Mem := fun a =>
  if a = 0x1004 then 60 else if a = 0x102e then 0x10 else if a = 0x100002 then 0x34 else 0

/-- The walk reports nothing of the only bus. -/
theorem not_perm_oneBus :
    ¬ reports (enumeratePci oneBus 0x1000) ~ expected oneBus 0x1000 := by
  intro h
  have hreached := (reports_perm_expected_iff 0x1000).mp h 0 (by decide)
  have hlt := hreached 0 (by decide) (by decide) 0 (by decide) (by decide)
  exact absurd hlt.1 (by decide)

end PCI

end EtaOs
