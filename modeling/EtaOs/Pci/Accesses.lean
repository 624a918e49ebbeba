import EtaOs.Pci.Exact

/-!
# What the PCI walk accesses

The walk stays in the table and in the windows of its records, but for two things that it does
not check: where the first page of a window is, and which class code a device has.

The walk has no result, so its accesses are all that can be said of it.  They are recorded with the
record of the table to which they belong, and each is asked to lie in the window of that record, in
the page of its function, or in the table of names.

* `functionAccesses`, `deviceAccesses`, `busAccesses`, `configAccesses`, `pciAccesses`: the walk
  with a record of its accesses; `toEvents_pciAccesses`, it does what the walk does.
* `InWindow`, `PageInside`: the window of a record.
* `pageInside_functionAddr`: the pages the walk reads are in the windows, if the first ones are.
* `accessesInside_iff`: the machines on which every access is inside.
-/

namespace EtaOs

open ByteMemory ACPI List

namespace PCI

/-! ## The walk with its accesses -/

/-- What the walk accesses: the length of the table, one of its records, bytes of
configuration space, and an entry of `device_classes`; and what it does. -/
inductive PciAccess
  | tableLength (mcfg : Addr)
  | record (config : Addr)
  | map (page : Addr)
  | read (a : Addr) (n : ℕ)
  | deviceClass (index : ℕ)
  | report (functionAddr : Addr) (header : PCIDeviceHeader)

/-- The access as an event of the walk. -/
def PciAccess.toEvent : PciAccess → Option PciEvent
  | .map page => some (.map page)
  | .report functionAddr header => some (.report functionAddr header)
  | _ => none

section

variable (mem : Mem)

/-- How each of the three levels begins: the page at `a` is mapped, and its device identifier
compared with 0 and with `0xffff`. -/
def visitPage (a : Addr) (rest : List PciAccess) : List PciAccess :=
  .map a :: .read (a + 2) 2 ::
    if (deviceHeader mem a).deviceId = 0 then []
    else .read (a + 2) 2 :: if (deviceHeader mem a).deviceId = 0xffff then [] else rest

/-- What `enumerate_function` prints: the names of the vendor, the device, its class and its
subclass. -/
def printAccesses (functionAddr : Addr) : List PciAccess :=
  let header := deviceHeader mem functionAddr
  [.read functionAddr 2, .read functionAddr 2, .read (functionAddr + 2) 2,
    .read (functionAddr + 11) 1, .deviceClass header.classCode.toNat,
    .read (functionAddr + 11) 1, .read (functionAddr + 10) 1, .report functionAddr header]

/-- `enumerate_function`. -/
def functionAccesses (deviceAddr function : BitVec 64) : List PciAccess :=
  let functionAddr := deviceAddr + function <<< 12
  visitPage mem functionAddr (printAccesses mem functionAddr)

/-- `enumerate_device`. -/
def deviceAccesses (busAddr device : BitVec 64) : List PciAccess :=
  let deviceAddr := busAddr + device <<< 15
  visitPage mem deviceAddr
    ((range 8).flatMap fun function => functionAccesses mem deviceAddr (BitVec.ofNat 64 function))

/-- `enumerate_bus`. -/
def busAccesses (baseAddr bus : BitVec 64) : List PciAccess :=
  let busAddr := baseAddr + bus <<< 20
  visitPage mem busAddr
    ((range 32).flatMap fun device => deviceAccesses mem busAddr (BitVec.ofNat 64 device))

/-- The loop over the buses of a record, which reads the end and the base again for each bus. -/
def configAccesses (config : Addr) : List PciAccess :=
  .record config ::
    ((range' (DeviceConfig.startBus mem config).toNat
      ((DeviceConfig.endBus mem config).toNat - (DeviceConfig.startBus mem config).toNat)).flatMap
      fun bus => .record config :: .record config ::
        busAccesses mem (DeviceConfig.baseAddr mem config) (BitVec.ofNat 64 bus)) ++
    [.record config]

/-- `enumerate_pci`. -/
def pciAccesses (mcfg : Addr) : List PciAccess :=
  .tableLength mcfg :: (range (mcfgEntries mem mcfg).toInt.toNat).flatMap fun i =>
    configAccesses mem (deviceConfig mcfg i)

end

/-- What the walk does, in its accesses. -/
def toEvents (accesses : List PciAccess) : List PciEvent := accesses.filterMap PciAccess.toEvent

section

variable {mem : Mem}

theorem toEvents_flatMap {α : Type} (l : List α) (f : α → List PciAccess) :
    toEvents (l.flatMap f) = l.flatMap fun a => toEvents (f a) := filterMap_flatMap

theorem toEvents_visitPage (a : Addr) (rest : List PciAccess) :
    toEvents (visitPage mem a rest) = .map a ::
      if (deviceHeader mem a).deviceId = 0 then []
      else if (deviceHeader mem a).deviceId = 0xffff then [] else toEvents rest := by
  unfold visitPage
  split_ifs <;> rfl

theorem toEvents_deviceAccesses (busAddr device : BitVec 64) :
    toEvents (deviceAccesses mem busAddr device) = enumerateDevice mem busAddr device := by
  have hfunction : ∀ deviceAddr function, toEvents (functionAccesses mem deviceAddr function) =
      enumerateFunction mem deviceAddr function := fun _ _ => toEvents_visitPage _ _
  unfold deviceAccesses
  dsimp only
  rw [toEvents_visitPage, toEvents_flatMap, flatMap_congr fun function _ => hfunction _ _]
  rfl

theorem toEvents_busAccesses (baseAddr bus : BitVec 64) :
    toEvents (busAccesses mem baseAddr bus) = enumerateBus mem baseAddr bus := by
  unfold busAccesses
  dsimp only
  rw [toEvents_visitPage, toEvents_flatMap,
    flatMap_congr fun device _ => toEvents_deviceAccesses _ _]
  rfl

/-- **The walk with its accesses is the walk.** -/
theorem toEvents_pciAccesses (mcfg : Addr) :
    toEvents (pciAccesses mem mcfg) = enumeratePci mem mcfg := by
  have hconfig : ∀ config, toEvents (configAccesses mem config) = enumerateConfig mem config := by
    intro config
    unfold configAccesses enumerateConfig toEvents
    rw [filterMap_append, filterMap_cons_none rfl, filterMap_flatMap]
    refine (append_nil _).trans (flatMap_congr fun bus _ => ?_)
    rw [filterMap_cons_none rfl, filterMap_cons_none rfl]
    exact toEvents_busAccesses _ _
  unfold pciAccesses enumeratePci
  refine (toEvents_flatMap _ _).trans (flatMap_congr fun i _ => hconfig _)

/-! ## Windows -/

/-- The page of an address. -/
def pageOf (a : Addr) : Addr := a - a % 4096

/-- The first address of the window of a record. -/
def windowStart (mem : Mem) (config : Addr) : Addr :=
  DeviceConfig.baseAddr mem config + (DeviceConfig.startBus mem config).setWidth 64 <<< 20

/-- The `n` bytes from `a` on are in the window of the record: from its first bus on, and before
the bus behind its last one. -/
def InWindow (mem : Mem) (config a : Addr) (n : ℕ) : Prop :=
  (a - windowStart mem config).toNat + n ≤
    2 ^ 20 * ((DeviceConfig.endBus mem config).toNat + 1 -
      (DeviceConfig.startBus mem config).toNat)

/-- The page of the address is in the window of some record. -/
def PageInside (mem : Mem) (mcfg a : Addr) : Prop :=
  ∃ i < segments mem mcfg, InWindow mem (deviceConfig mcfg i) (pageOf a) 4096

/-- **The access is inside**: a whole record of the table, a page or bytes of pages in the window
of a record, an entry of the table of names. -/
def Inside (mem : Mem) (mcfg : Addr) : PciAccess → Prop
  | .record config => ∃ offset, 44 ≤ offset ∧
      offset + 16 ≤ (SDTHeader.length mem mcfg).toNat ∧ config = mcfg + BitVec.ofNat 64 offset
  | .map page => PageInside mem mcfg page
  | .read a n => ∀ k < n, PageInside mem mcfg (a + BitVec.ofNat 64 k)
  | .deviceClass index => index < 20
  | .tableLength _ => True
  | .report _ _ => True

/-- Every access of the walk is inside. -/
def AccessesInside (mem : Mem) (mcfg : Addr) : Prop :=
  ∀ x ∈ pciAccesses mem mcfg, Inside mem mcfg x

/-- **Nothing leads the walk outside**: the windows it goes through start at a page, or their
first page is in the window of another record; and the functions it reports have a class with
a name. -/
structure WellPlaced (mem : Mem) (mcfg : Addr) : Prop where
  first : ∀ i < segments mem mcfg,
    (DeviceConfig.startBus mem (deviceConfig mcfg i)).toNat <
      (DeviceConfig.endBus mem (deviceConfig mcfg i)).toNat →
    (DeviceConfig.baseAddr mem (deviceConfig mcfg i)).toNat % 4096 = 0 ∨
      ∃ j < segments mem mcfg, j ≠ i ∧
        InWindow mem (deviceConfig mcfg j) (pageOf (windowStart mem (deviceConfig mcfg i))) 4096
  named : ∀ i < segments mem mcfg, ∀ bus device function,
    (DeviceConfig.startBus mem (deviceConfig mcfg i)).toNat ≤ bus →
    bus < (DeviceConfig.endBus mem (deviceConfig mcfg i)).toNat → device < 32 → function < 8 →
    Present mem (functionAddr (DeviceConfig.baseAddr mem (deviceConfig mcfg i)) bus 0 0) →
    Present mem (functionAddr (DeviceConfig.baseAddr mem (deviceConfig mcfg i)) bus device 0) →
    Present mem
      (functionAddr (DeviceConfig.baseAddr mem (deviceConfig mcfg i)) bus device function) →
    (deviceHeader mem (functionAddr (DeviceConfig.baseAddr mem (deviceConfig mcfg i)) bus device
      function)).classCode.toNat < 20

/-! ## Pages in windows -/

/-- The page of a function, from the base of its segment on. -/
theorem functionAddr_eq (baseAddr : BitVec 64) (bus device function : ℕ) :
    functionAddr baseAddr bus device function =
      baseAddr + BitVec.ofNat 64 (2 ^ 20 * bus + 2 ^ 15 * device + 2 ^ 12 * function) := by
  have hshift : ∀ n k : ℕ, BitVec.ofNat 64 n <<< k = BitVec.ofNat 64 (2 ^ k * n) := by
    intro n k
    apply BitVec.eq_of_toNat_eq
    rw [BitVec.toNat_shiftLeft, BitVec.toNat_ofNat, BitVec.toNat_ofNat, Nat.shiftLeft_eq,
      Nat.mod_mul_mod, Nat.mul_comm]
  unfold functionAddr
  rw [hshift, hshift, hshift, BitVec.ofNat_add, BitVec.ofNat_add, BitVec.add_assoc,
    BitVec.add_assoc, BitVec.add_assoc]

theorem toNat_pageOffset (lo : Addr) (d : ℕ) :
    ((lo + BitVec.ofNat 64 d) % 4096).toNat = (lo.toNat + d) % 4096 := by
  rw [BitVec.toNat_umod, BitVec.toNat_add, BitVec.toNat_ofNat,
    show (4096 : BitVec 64).toNat = 4096 from rfl]
  omega

/-- The page of an address behind `lo` starts behind `lo`, unless `lo` is inside it. -/
theorem toNat_pageOf_sub {lo : Addr} {d : ℕ} (hd : d < 2 ^ 32) (h : (lo.toNat + d) % 4096 ≤ d) :
    (pageOf (lo + BitVec.ofNat 64 d) - lo).toNat = d - (lo.toNat + d) % 4096 := by
  have hlo := lo.isLt
  unfold pageOf
  rw [BitVec.toNat_sub, BitVec.toNat_sub, toNat_pageOffset, BitVec.toNat_add, BitVec.toNat_ofNat]
  omega

theorem pageOf_eq {lo : Addr} {d : ℕ} (h : lo.toNat % 4096 + d < 4096) :
    pageOf (lo + BitVec.ofNat 64 d) = pageOf lo := by
  have hlo := lo.isLt
  have hself : (lo % 4096).toNat = lo.toNat % 4096 := rfl
  apply BitVec.eq_of_toNat_eq
  unfold pageOf
  rw [BitVec.toNat_sub, BitVec.toNat_sub, toNat_pageOffset, hself, BitVec.toNat_add,
    BitVec.toNat_ofNat]
  omega

/-- A function of a bus of the window, from the start of the window on. -/
theorem functionAddr_windowStart {config : Addr} {bus : ℕ} (device function k : ℕ)
    (hbus : (DeviceConfig.startBus mem config).toNat ≤ bus) :
    functionAddr (DeviceConfig.baseAddr mem config) bus device function + BitVec.ofNat 64 k =
      windowStart mem config + BitVec.ofNat 64
        (2 ^ 20 * (bus - (DeviceConfig.startBus mem config).toNat) + 2 ^ 15 * device +
          2 ^ 12 * function + k) := by
  have hstart : (DeviceConfig.startBus mem config).setWidth 64 <<< 20 =
      BitVec.ofNat 64 (2 ^ 20 * (DeviceConfig.startBus mem config).toNat) := by
    have hlt := (DeviceConfig.startBus mem config).isLt
    apply BitVec.eq_of_toNat_eq
    rw [BitVec.toNat_shiftLeft, BitVec.toNat_setWidth, BitVec.toNat_ofNat, Nat.shiftLeft_eq]
    omega
  rw [functionAddr_eq, windowStart, hstart, BitVec.add_assoc, BitVec.add_assoc, ← BitVec.ofNat_add,
    ← BitVec.ofNat_add]
  congr 2
  omega

theorem windowStart_mod (mem : Mem) (config : Addr) :
    (windowStart mem config).toNat % 4096 = (DeviceConfig.baseAddr mem config).toNat % 4096 := by
  unfold windowStart
  rw [BitVec.toNat_add, BitVec.toNat_shiftLeft, BitVec.toNat_setWidth, Nat.shiftLeft_eq]
  omega

/-- A page that starts behind the start of a window is in the window. -/
theorem inWindow_of_mod_le {config : Addr} {d : ℕ}
    (hlt : d < 2 ^ 20 * ((DeviceConfig.endBus mem config).toNat -
      (DeviceConfig.startBus mem config).toNat))
    (h : ((windowStart mem config).toNat + d) % 4096 ≤ d) :
    InWindow mem config (pageOf (windowStart mem config + BitVec.ofNat 64 d)) 4096 := by
  have hend := (DeviceConfig.endBus mem config).isLt
  unfold InWindow
  rw [toNat_pageOf_sub (by omega) h]
  omega

/-- The page at the start of a window is in it only if the window starts at a page. -/
theorem mod_eq_zero_of_inWindow {config : Addr}
    (h : InWindow mem config (pageOf (windowStart mem config)) 4096) :
    (DeviceConfig.baseAddr mem config).toNat % 4096 = 0 := by
  have hend := (DeviceConfig.endBus mem config).isLt
  have hself : (windowStart mem config % 4096).toNat = (windowStart mem config).toNat % 4096 := rfl
  have hlo := (windowStart mem config).isLt
  rw [← windowStart_mod]
  unfold InWindow pageOf at h
  rw [BitVec.toNat_sub, BitVec.toNat_sub, hself] at h
  omega

/-- **The pages the walk reads are in the windows.**  The page at the start of a window is, and
no other page the walk reads starts before it. -/
theorem pageInside_functionAddr {mcfg : Addr} {i bus device function k : ℕ}
    (hi : i < segments mem mcfg)
    (hfirst : (DeviceConfig.baseAddr mem (deviceConfig mcfg i)).toNat % 4096 = 0 ∨
      PageInside mem mcfg (windowStart mem (deviceConfig mcfg i)))
    (hlo : (DeviceConfig.startBus mem (deviceConfig mcfg i)).toNat ≤ bus)
    (hhi : bus < (DeviceConfig.endBus mem (deviceConfig mcfg i)).toNat)
    (hdevice : device < 32) (hfunction : function < 8) (hk : k < 4096) :
    PageInside mem mcfg (functionAddr (DeviceConfig.baseAddr mem (deviceConfig mcfg i)) bus device
      function + BitVec.ofNat 64 k) := by
  rw [functionAddr_windowStart device function k hlo]
  have hmod := windowStart_mod mem (deviceConfig mcfg i)
  generalize hd : 2 ^ 20 * (bus - (DeviceConfig.startBus mem (deviceConfig mcfg i)).toNat) +
    2 ^ 15 * device + 2 ^ 12 * function + k = d
  have hlt : d < 2 ^ 20 * ((DeviceConfig.endBus mem (deviceConfig mcfg i)).toNat -
      (DeviceConfig.startBus mem (deviceConfig mcfg i)).toNat) := by omega
  by_cases h : ((windowStart mem (deviceConfig mcfg i)).toNat + d) % 4096 ≤ d
  · exact ⟨i, hi, inWindow_of_mod_le hlt h⟩
  · -- the address is in the page at the start of the window, which starts before the window
    obtain ⟨j, hj, hwindow⟩ := hfirst.resolve_left (by omega)
    refine ⟨j, hj, ?_⟩
    rwa [pageOf_eq (by omega)]

/-! ## Accesses inside -/

section Inside

variable {mcfg a : Addr} {rest : List PciAccess}

/-- The bytes of the header at `a` are in pages inside. -/
def HeaderInside (mem : Mem) (mcfg a : Addr) : Prop :=
  ∀ k < 12, PageInside mem mcfg (a + BitVec.ofNat 64 k)

/-- A field of the header. -/
theorem HeaderInside.read (h : HeaderInside mem mcfg a) {o n : ℕ} (hn : o + n ≤ 12) :
    Inside mem mcfg (.read (a + BitVec.ofNat 64 o) n) := by
  intro k hk
  rw [BitVec.add_assoc, ← BitVec.ofNat_add]
  exact h _ (by omega)

/-- **One page.** -/
theorem inside_visitPage (h : HeaderInside mem mcfg a)
    (hrest : Present mem a → ∀ x ∈ rest, Inside mem mcfg x) :
    ∀ x ∈ visitPage mem a rest, Inside mem mcfg x := by
  have hmap : Inside mem mcfg (.map a) := by
    have h0 := h 0 (by omega)
    rwa [BitVec.add_zero] at h0
  have hread : Inside mem mcfg (.read (a + 2) 2) := h.read (o := 2) (by omega)
  unfold visitPage
  rw [forall_mem_cons, forall_mem_cons]
  refine ⟨hmap, hread, ?_⟩
  split
  next => exact forall_mem_nil _
  next hzero =>
    refine forall_mem_cons.mpr ⟨hread, ?_⟩
    split
    next => exact forall_mem_nil _
    next hones => exact hrest ⟨hzero, hones⟩

theorem mem_visitPage {x : PciAccess} (h : Present mem a) (hx : x ∈ rest) :
    x ∈ visitPage mem a rest := by
  unfold visitPage
  rw [if_neg h.1, if_neg h.2]
  exact mem_cons_of_mem _ (mem_cons_of_mem _ (mem_cons_of_mem _ hx))

/-- **One function.** -/
theorem inside_printAccesses (h : HeaderInside mem mcfg a)
    (hclass : (deviceHeader mem a).classCode.toNat < 20) :
    ∀ x ∈ printAccesses mem a, Inside mem mcfg x := by
  have hvendor : Inside mem mcfg (.read a 2) := by
    have h0 := h.read (o := 0) (n := 2) (by omega)
    rwa [BitVec.add_zero] at h0
  have hread : ∀ o n, o + n ≤ 12 → Inside mem mcfg (.read (a + BitVec.ofNat 64 o) n) :=
    fun o n hn => h.read hn
  unfold printAccesses
  simp only [forall_mem_cons]
  exact ⟨hvendor, hvendor, hread 2 2 (by omega), hread 11 1 (by omega), hclass,
    hread 11 1 (by omega), hread 10 1 (by omega), trivial, forall_mem_nil _⟩

end Inside

/-! ## The whole walk -/

theorem deviceConfig_eq (mcfg : Addr) (i : ℕ) :
    deviceConfig mcfg i = mcfg + BitVec.ofNat 64 (44 + 16 * i) := by
  rw [deviceConfig, BitVec.ofNat_add, BitVec.ofNat_mul, BitVec.add_assoc]
  rfl

/-- **The accesses of the walk** are those to the length, to the records, and to the buses. -/
theorem mem_pciAccesses_iff {mcfg : Addr} {x : PciAccess} : x ∈ pciAccesses mem mcfg ↔
    x = .tableLength mcfg ∨ ∃ i < segments mem mcfg, x = .record (deviceConfig mcfg i) ∨
      ∃ bus, (DeviceConfig.startBus mem (deviceConfig mcfg i)).toNat ≤ bus ∧
        bus < (DeviceConfig.endBus mem (deviceConfig mcfg i)).toNat ∧
        x ∈ busAccesses mem (DeviceConfig.baseAddr mem (deviceConfig mcfg i))
          (BitVec.ofNat 64 bus) := by
  unfold pciAccesses
  rw [mem_cons, mem_flatMap, toNat_mcfgEntries]
  refine or_congr_right (exists_congr fun i => and_congr mem_range ?_)
  unfold configAccesses
  simp only [mem_cons, mem_append, mem_flatMap, mem_range'_1, not_mem_nil, or_false]
  constructor
  · rintro ((h | ⟨bus, hbus, h | h | h⟩) | h)
    · exact Or.inl h
    · exact Or.inl h
    · exact Or.inl h
    · exact Or.inr ⟨bus, hbus.1, by omega, h⟩
    · exact Or.inl h
  · rintro (h | ⟨bus, hlo, hhi, h⟩)
    · exact Or.inr h
    · exact Or.inl (Or.inr ⟨bus, ⟨hlo, by omega⟩, Or.inr (Or.inr h)⟩)

/-- One bus, by the pages of its functions. -/
theorem busAccesses_eq (baseAddr : Addr) (bus : ℕ) :
    busAccesses mem baseAddr (BitVec.ofNat 64 bus) =
      visitPage mem (functionAddr baseAddr bus 0 0) ((range 32).flatMap fun device =>
        visitPage mem (functionAddr baseAddr bus device 0) ((range 8).flatMap fun function =>
          visitPage mem (functionAddr baseAddr bus device function)
            (printAccesses mem (functionAddr baseAddr bus device function)))) := by
  rw [functionAddr_zero_zero]
  simp only [functionAddr_zero]
  rfl

/-- **One bus**: its accesses are inside when the headers of its functions are, and those that
are there have a class with a name. -/
theorem inside_busAccesses {mcfg baseAddr : Addr} {bus : ℕ}
    (hheader : ∀ device < 32, ∀ function < 8,
      HeaderInside mem mcfg (functionAddr baseAddr bus device function))
    (hnamed : ∀ device < 32, ∀ function < 8, Present mem (functionAddr baseAddr bus 0 0) →
      Present mem (functionAddr baseAddr bus device 0) →
      Present mem (functionAddr baseAddr bus device function) →
      (deviceHeader mem (functionAddr baseAddr bus device function)).classCode.toNat < 20) :
    ∀ x ∈ busAccesses mem baseAddr (BitVec.ofNat 64 bus), Inside mem mcfg x := by
  rw [busAccesses_eq]
  refine inside_visitPage (hheader 0 (by omega) 0 (by omega)) fun hbus x hx => ?_
  obtain ⟨device, hdevice, hx⟩ := mem_flatMap.mp hx
  rw [mem_range] at hdevice
  refine inside_visitPage (hheader device hdevice 0 (by omega)) (fun hzero x hx => ?_) x hx
  obtain ⟨function, hfunction, hx⟩ := mem_flatMap.mp hx
  rw [mem_range] at hfunction
  have hinside := hheader device hdevice function hfunction
  refine inside_visitPage hinside (fun hpresent => ?_) x hx
  exact inside_printAccesses hinside (hnamed device hdevice function hfunction hbus hzero hpresent)

/-- The name of the class of each function that is reported is looked up. -/
theorem deviceClass_mem_busAccesses {baseAddr : Addr} {bus device function : ℕ}
    (hdevice : device < 32) (hfunction : function < 8)
    (hbus : Present mem (functionAddr baseAddr bus 0 0))
    (hzero : Present mem (functionAddr baseAddr bus device 0))
    (hpresent : Present mem (functionAddr baseAddr bus device function)) :
    PciAccess.deviceClass
      (deviceHeader mem (functionAddr baseAddr bus device function)).classCode.toNat ∈
      busAccesses mem baseAddr (BitVec.ofNat 64 bus) := by
  rw [busAccesses_eq]
  refine mem_visitPage hbus (mem_flatMap.mpr ⟨device, mem_range.mpr hdevice, ?_⟩)
  refine mem_visitPage hzero (mem_flatMap.mpr ⟨function, mem_range.mpr hfunction, ?_⟩)
  refine mem_visitPage hpresent ?_
  unfold printAccesses
  simp only [mem_cons, true_or, or_true]

/-- **The machines on which every access is inside.** -/
theorem accessesInside_iff (mem : Mem) (mcfg : Addr) :
    AccessesInside mem mcfg ↔ WellPlaced mem mcfg := by
  unfold AccessesInside
  simp only [mem_pciAccesses_iff]
  constructor
  · intro h
    refine ⟨fun i hi hlt => ?_, ?_⟩
    · by_contra hout
      rw [not_or] at hout
      have hmem : PciAccess.map (windowStart mem (deviceConfig mcfg i)) ∈
          busAccesses mem (DeviceConfig.baseAddr mem (deviceConfig mcfg i))
            (BitVec.ofNat 64 (DeviceConfig.startBus mem (deviceConfig mcfg i)).toNat) := by
        unfold windowStart
        rw [← BitVec.ofNat_toNat]
        exact mem_cons_self
      obtain ⟨j, hj, hwindow⟩ := h _ (Or.inr ⟨i, hi, Or.inr ⟨_, le_refl _, hlt, hmem⟩⟩)
      rcases eq_or_ne j i with rfl | hne
      · exact absurd (mod_eq_zero_of_inWindow hwindow) hout.1
      · exact hout.2 ⟨j, hj, hne, hwindow⟩
    · intro i hi bus device function hlo hhi hdevice hfunction hbus hzero hpresent
      exact h _ (Or.inr ⟨i, hi, Or.inr ⟨bus, hlo, hhi,
        deviceClass_mem_busAccesses hdevice hfunction hbus hzero hpresent⟩⟩)
  · rintro hwell x (rfl | ⟨i, hi, rfl | ⟨bus, hlo, hhi, hx⟩⟩)
    · trivial
    · unfold segments at hi
      exact ⟨44 + 16 * i, by omega, by omega, deviceConfig_eq mcfg i⟩
    · have hfirst := hwell.first i hi (by omega)
      refine inside_busAccesses (fun device hdevice function hfunction k hk => ?_) ?_ x hx
      · refine pageInside_functionAddr hi (hfirst.imp_right ?_) hlo hhi hdevice hfunction (by omega)
        rintro ⟨j, hj, -, hwindow⟩
        exact ⟨j, hj, hwindow⟩
      · intro device hdevice function hfunction
        exact hwell.named i hi bus device function hlo hhi hdevice hfunction

end

/-- A table at 4 KiB with one segment of the buses 0 and 1, and a device of class `c` at bus 0. -/
def oneDevice (c : BitVec 8) : Mem := fun a =>
  if a = 0x1004 then 60 else if a = 0x102e then 0x10 else if a = 0x1037 then 1
  else if a = 0x100002 then 0x34 else if a = 0x10000b then c else 0

/-- The class 20 has no name. -/
theorem not_accessesInside_oneDevice : ¬ AccessesInside (oneDevice 20) 0x1000 := by
  intro h
  have hmem : PciAccess.deviceClass 20 ∈ pciAccesses (oneDevice 20) 0x1000 := by
    refine mem_pciAccesses_iff.mpr (Or.inr ⟨0, by decide, Or.inr ⟨0, by decide, by decide, ?_⟩⟩)
    have hfirst : 0 < 32 ∧ 0 < 8 := by decide
    have hpresent : Present (oneDevice 20) (functionAddr 0x100000 0 0 0) := by decide
    have hnamed := deviceClass_mem_busAccesses hfirst.1 hfirst.2 hpresent hpresent hpresent
    exact hnamed
  have hlt : 20 < 20 := h _ hmem
  exact absurd hlt (by decide)

end PCI

end EtaOs
