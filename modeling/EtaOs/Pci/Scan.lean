import EtaOs.Pci.Paged

/-!
# The walk on a machine

The walk on memory is a list of what it does, and the walk of the kernel is a program that loads,
maps and prints.  Here the two are compared, for any machine on which three things can be done: the
pixels of the renderer are stored and its glyphs are loaded, a page of configuration space is
mapped, and the bytes that the walk looks at are loaded as the memory has them.  Then the program
returns, it maps the pages of the list, and it prints what the list reports.

The bytes that can be looked at are more and more, as every page that is mapped is one that is read
from then on; the relation of the machine and the renderer has the set of them as an argument, and
the pages mapped so far.  A page that is mapped stays so while its functions are printed.

The list has no page fault in it.  So the comparison is one from the list to the program only, and
everything that may go wrong is asked for: the pages have to be ones that the machine can map, the
classes ones that have a name, and the text has to fit on the screen.

* `SeesRange`: bytes that are loaded as a memory has them; the loads of words.
* `returns_findTable`: the search of the XSDT.
* `ScanRel`: a machine on which the walk can be made.
* `Scans`: a part of the program does what a part of the list says; `Scans.visitPage`,
  `Scans.foldlM`, its rules.
* `EventOk`: what is asked of the list.
* `TablesIn`, `scans_prepareAcpi`: the tables of the firmware, and the walk.
-/

namespace EtaOs

open BasicRenderer ByteMemory Fallible ACPI PCI

/-! ## Loads -/

section Loads

variable {σ : Type} {m : Mem} {k : KernelHeap σ} {a : Addr} {n : ℕ}

/-- The `n` bytes from `a` on are loaded as `m` has them. -/
def SeesRange (m : Mem) (k : KernelHeap σ) (a : Addr) (n : ℕ) : Prop :=
  ∀ i < n, k.machine.load8 (a + BitVec.ofNat 64 i) = some (m (a + BitVec.ofNat 64 i))

theorem SeesRange.mono (h : SeesRange m k a n) {n' : ℕ} (hn : n' ≤ n) : SeesRange m k a n' :=
  fun i hi => h i (by omega)

theorem SeesRange.shift (h : SeesRange m k a n) {d n' : ℕ} (hd : d + n' ≤ n) :
    SeesRange m k (a + BitVec.ofNat 64 d) n' := by
  intro i hi
  rw [BitVec.add_assoc, ← BitVec.ofNat_add]
  exact h (d + i) (by omega)

theorem SeesRange.byte (h : SeesRange m k a n) (i : ℕ) (hi : i < n) :
    Returns (HeapM.load8 (a + BitVec.ofNat 64 i)) k fun b k' =>
      b = m (a + BitVec.ofNat 64 i) ∧ k' = k := by
  refine ⟨m (a + BitVec.ofNat 64 i), k, ?_, rfl, rfl⟩
  rw [HeapM.load8, h i hi, Option.map_some]

theorem SeesRange.first (h : SeesRange m k a n) (hn : 0 < n) :
    Returns (HeapM.load8 a) k fun b k' => b = m a ∧ k' = k := by
  have hbyte := h.byte 0 hn
  rwa [BitVec.add_zero] at hbyte

theorem SeesRange.word16 (h : SeesRange m k a 2) :
    Returns (HeapM.word16 a) k fun w k' => w = load16 m a ∧ k' = k := by
  refine (h.first (by omega)).bind ?_
  rintro _ _ ⟨rfl, rfl⟩
  refine (h.byte 1 (by omega)).bind ?_
  rintro _ _ ⟨rfl, rfl⟩
  exact returns_pure ⟨rfl, rfl⟩

theorem SeesRange.word32 (h : SeesRange m k a 4) :
    Returns (HeapM.word32 a) k fun w k' => w = load32 m a ∧ k' = k := by
  refine (h.mono (by omega)).word16.bind ?_
  rintro _ _ ⟨rfl, rfl⟩
  refine (h.shift (d := 2) (by omega)).word16.bind ?_
  rintro _ _ ⟨rfl, rfl⟩
  exact returns_pure ⟨rfl, rfl⟩

theorem SeesRange.word64 (h : SeesRange m k a 8) :
    Returns (HeapM.word64 a) k fun w k' => w = load64 m a ∧ k' = k := by
  refine (h.first (by omega)).bind ?_
  rintro _ _ ⟨rfl, rfl⟩
  refine (h.byte 1 (by omega)).bind ?_
  rintro _ _ ⟨rfl, rfl⟩
  refine (h.byte 2 (by omega)).bind ?_
  rintro _ _ ⟨rfl, rfl⟩
  refine (h.byte 3 (by omega)).bind ?_
  rintro _ _ ⟨rfl, rfl⟩
  refine (h.byte 4 (by omega)).bind ?_
  rintro _ _ ⟨rfl, rfl⟩
  refine (h.byte 5 (by omega)).bind ?_
  rintro _ _ ⟨rfl, rfl⟩
  refine (h.byte 6 (by omega)).bind ?_
  rintro _ _ ⟨rfl, rfl⟩
  refine (h.byte 7 (by omega)).bind ?_
  rintro _ _ ⟨rfl, rfl⟩
  exact returns_pure ⟨rfl, rfl⟩

/-! ## The search of the XSDT -/

variable {header sdtHeader : Addr} {signature : ℕ → BitVec 8}

theorem returns_signatureLoop {left j : ℕ} (h : SeesRange m k header (j + left)) :
    Returns (HeapM.signatureLoop header signature j left) k fun b k' =>
      b = signatureLoop m header signature j left ∧ k' = k := by
  induction left generalizing j with
  | zero => exact returns_pure ⟨rfl, rfl⟩
  | succ left ih =>
      refine (h.byte j (by omega)).bind ?_
      rintro _ _ ⟨rfl, rfl⟩
      unfold signatureLoop
      by_cases hne : ((m (header + BitVec.ofNat 64 j)).toNat : ℤ) ≠ (signature j).toInt
      · rw [if_pos hne, if_pos hne]
        exact returns_pure ⟨rfl, rfl⟩
      rw [if_neg hne, if_neg hne]
      by_cases hlast : j = 3
      · rw [if_pos hlast, if_pos hlast]
        exact returns_pure ⟨rfl, rfl⟩
      rw [if_neg hlast, if_neg hlast]
      exact ih (by rwa [Nat.add_right_comm, Nat.add_assoc])

/-- The search from entry `i` on reads the entries left, and the signatures of their tables. -/
theorem returns_findTableFrom {left i : ℕ}
    (hentry : ∀ j, i ≤ j → j < i + left → SeesRange m k
      (sdtHeader + sdtHeaderSize + (BitVec.ofNat 32 j * 8).signExtend 64) 8)
    (htable : ∀ j, i ≤ j → j < i + left →
      SeesRange m k (sdtEntry m sdtHeader (BitVec.ofNat 32 j)) 4) :
    Returns (HeapM.findTableFrom sdtHeader signature (BitVec.ofNat 32 i) left) k fun t k' =>
      t = findTableFrom m sdtHeader signature (BitVec.ofNat 32 i) left ∧ k' = k := by
  induction left generalizing i with
  | zero => exact returns_pure ⟨rfl, rfl⟩
  | succ left ih =>
      refine (hentry i le_rfl (by omega)).word64.bind ?_
      rintro _ _ ⟨rfl, rfl⟩
      have hsees : SeesRange m _ (sdtEntry m sdtHeader (BitVec.ofNat 32 i)) (0 + 4) :=
        htable i le_rfl (by omega)
      refine (returns_signatureLoop hsees).bind ?_
      rintro _ _ ⟨rfl, rfl⟩
      rw [findTableFrom]
      by_cases hmatch : signatureMatches m (sdtEntry m sdtHeader (BitVec.ofNat 32 i)) signature
      · rw [if_pos hmatch]
        exact Returns.of_ite_pos hmatch (returns_pure ⟨rfl, rfl⟩)
      rw [if_neg hmatch]
      refine Returns.of_ite_neg hmatch ?_
      have hnext : BitVec.ofNat 32 i + 1 = BitVec.ofNat 32 (i + 1) := (BitVec.ofNat_add _ _).symm
      rw [hnext]
      exact ih (fun j hj hj' => hentry j (by omega) (by omega))
        fun j hj hj' => htable j (by omega) (by omega)

/-- **The search of the XSDT** finds what the memory has. -/
theorem returns_findTable (hlength : SeesRange m k (sdtHeader + 4) 4)
    (hentry : ∀ j < (sdtEntries m sdtHeader).toInt.toNat, SeesRange m k
      (sdtHeader + sdtHeaderSize + (BitVec.ofNat 32 j * 8).signExtend 64) 8)
    (htable : ∀ j < (sdtEntries m sdtHeader).toInt.toNat,
      SeesRange m k (sdtEntry m sdtHeader (BitVec.ofNat 32 j)) 4) :
    Returns (HeapM.findTable sdtHeader signature) k fun t k' =>
      t = findTable m sdtHeader signature ∧ k' = k := by
  refine hlength.word32.bind ?_
  rintro _ _ ⟨rfl, rfl⟩
  exact returns_findTableFrom (i := 0)
    (fun j _ hj => hentry j (lt_of_lt_of_eq hj (Nat.zero_add _)))
    fun j _ hj => htable j (lt_of_lt_of_eq hj (Nat.zero_add _))

end Loads

/-! ## A machine on which the walk can be made -/

/-- The bytes of the page at `p`. -/
def bytesOfPage (p : Addr) : Set Addr := {x | (x - p).toNat < 4096}

/-- **A machine on which the walk can be made.**  `J D c k r` relates a machine to a renderer: the
bytes of `D` are loaded as `m` has them, and the pages of `c` have been mapped since the walk
began. -/
structure ScanRel {σ : Type} (source : FrameSource σ) (ptm : PageTableManager) (t : Target)
    (glyphBuffer : Addr) (m : Mem) (Page : Addr → Prop)
    (J : Set Addr → List Addr → KernelHeap σ → BasicRenderer → Prop) : Prop where
  renders : ∀ D c, RendersTo t glyphBuffer (J D c)
  mono : ∀ {D D' c k r}, D ⊆ D' → J D' c k r → J D c k r
  bytes : ∀ {D c k r x}, J D c k r → x ∈ D → k.machine.load8 x = some (m x)
  map : ∀ {D c k r p}, Page p → J D c k r →
    Returns (HeapM.mapMem source ptm p p) k fun _ k' => J (D ∪ bytesOfPage p) (c ++ [p]) k' r

/-- **A part of the program does what a part of the list says**, if its text fits on the screen. -/
def Scans {σ : Type} (t : Target)
    (J : Set Addr → List Addr → KernelHeap σ → BasicRenderer → Prop) (D : Set Addr)
    (x : Point → HeapM σ Point) (events : List PciEvent) : Prop :=
  ∀ c k r, J D c k r → StoresInside t (render t (reportOps events) r) →
    Returns (x r.cursorPosition) k fun p k' =>
      p = (render t (reportOps events) r).cursorPosition ∧
        J D (c ++ mappedPages events) k' (render t (reportOps events) r)

/-- What the walk asks of the machine: its pages can be mapped, and its classes have names. -/
def EventOk (Page : Addr → Prop) : PciEvent → Prop
  | .map p => Page p
  | .report _ header => header.classCode.toNat < deviceClasses.length

instance {Page : Addr → Prop} [DecidablePred Page] (e : PciEvent) : Decidable (EventOk Page e) :=
  match e with
  | .map p => inferInstanceAs (Decidable (Page p))
  | .report _ _ => inferInstanceAs (Decidable (_ < _))

section Rules

variable {σ : Type} {source : FrameSource σ} {ptm : PageTableManager} {t : Target}
  {glyphBuffer : Addr} {m : Mem} {Page : Addr → Prop}
  {J : Set Addr → List Addr → KernelHeap σ → BasicRenderer → Prop} {D : Set Addr} {p a : Addr}
  {x y : Point → HeapM σ Point} {events events' : List PciEvent} {c : List Addr}
  {k : KernelHeap σ} {r : BasicRenderer}

/-- What has been stored inside has been so before the last calls. -/
theorem storesInside_of_render {ops : List RenderOp} (h : StoresInside t (render t ops r)) :
    StoresInside t r := by
  induction ops generalizing r with
  | nil => exact h
  | cons op ops ih => exact ((storesInside_run_iff op r).mp (ih h)).1

/-- Two parts of a walk are printed one after the other. -/
theorem render_reportOps_append : render t (reportOps (events ++ events')) r =
    render t (reportOps events') (render t (reportOps events) r) := by
  rw [reportOps_append]
  exact List.foldl_append

theorem scans_pure : Scans t J D pure [] := fun c _ _ hJ _ =>
  returns_pure ⟨rfl, (List.append_nil c).symm ▸ hJ⟩

/-- **Sequencing rule.** -/
theorem Scans.bind (hx : Scans t J D x events) (hy : Scans t J D y events') :
    Scans t J D (fun p => x p >>= y) (events ++ events') := by
  intro c k r hJ hin
  rw [render_reportOps_append] at hin ⊢
  refine (hx c k r hJ (storesInside_of_render hin)).bind ?_
  rintro _ k' ⟨rfl, hJ'⟩
  refine (hy _ k' _ hJ' hin).mono ?_
  rintro _ k'' ⟨rfl, hJ''⟩
  rw [mappedPages_append, ← List.append_assoc]
  exact ⟨rfl, hJ''⟩

/-- **Loop rule.** -/
theorem Scans.foldlM {ι : Type} {f : Point → ι → HeapM σ Point} {g : ι → List PciEvent}
    {l : List ι} (h : ∀ i ∈ l, Scans t J D (fun p => f p i) (g i)) :
    Scans t J D (fun p => l.foldlM f p) (l.flatMap g) := by
  induction l with
  | nil => exact scans_pure
  | cons i l ih =>
      rw [List.flatMap_cons]
      exact (h i List.mem_cons_self).bind (ih fun j hj => h j (List.mem_cons_of_mem i hj))

/-- What is done behind a page that is there is done by the level. -/
theorem mem_of_present {e : PciEvent} (hpresent : Present m p) (he : e ∈ events) :
    e ∈ PciEvent.map p :: if (deviceHeader m p).deviceId = 0 then []
      else if (deviceHeader m p).deviceId = 0xffff then [] else events := by
  rw [if_neg hpresent.1, if_neg hpresent.2]
  exact List.mem_cons_of_mem _ he

variable (h : ScanRel source ptm t glyphBuffer m Page J)

include h

/-- The bytes of `D` are loaded. -/
theorem ScanRel.sees (hJ : J D c k r) {n : ℕ} (hD : ∀ i < n, a + BitVec.ofNat 64 i ∈ D) :
    SeesRange m k a n := fun i hi => h.bytes hJ (hD i hi)

/-- The bytes of a page that is mapped are among those that are seen. -/
theorem ScanRel.seesPage (hJ : J D c k r) (hD : bytesOfPage p ⊆ D) : SeesRange m k p 4096 := by
  refine h.sees hJ fun i hi => hD ?_
  show (p + BitVec.ofNat 64 i - p).toNat < 4096
  bv_omega

/-- **How each level begins.** -/
theorem Scans.visitPage {rest : Point → HeapM σ Point} (hp : Page p)
    (hrest : Present m p → Scans t J (D ∪ bytesOfPage p) rest events) :
    Scans t J D (HeapM.visitPage source ptm p rest)
      (.map p :: if (deviceHeader m p).deviceId = 0 then []
        else if (deviceHeader m p).deviceId = 0xffff then [] else events) := by
  intro c k r hJ hin
  refine (h.map hp hJ).bind ?_
  rintro _ k' hJ'
  have hsees := h.seesPage hJ' Set.subset_union_right
  have hid : SeesRange m k' (p + 2) 2 := hsees.shift (d := 2) (by omega)
  refine hid.word16.bind ?_
  rintro _ _ ⟨rfl, rfl⟩
  by_cases hzero : (deviceHeader m p).deviceId = 0
  · rw [if_pos hzero]
    exact Returns.of_ite_pos hzero (returns_pure ⟨rfl, h.mono Set.subset_union_left hJ'⟩)
  rw [if_neg hzero] at hin ⊢
  refine Returns.of_ite_neg hzero (hid.word16.bind ?_)
  rintro _ _ ⟨rfl, rfl⟩
  by_cases hones : (deviceHeader m p).deviceId = 0xffff
  · rw [if_pos hones]
    exact Returns.of_ite_pos hones (returns_pure ⟨rfl, h.mono Set.subset_union_left hJ'⟩)
  rw [if_neg hones] at hin ⊢
  refine Returns.of_ite_neg hones ((hrest ⟨hzero, hones⟩ _ _ r hJ' hin).mono ?_)
  rintro _ k'' ⟨rfl, hJ''⟩
  rw [List.append_assoc] at hJ''
  exact ⟨rfl, h.mono Set.subset_union_left hJ''⟩

variable (hfont : t.psf1Header.charsize ≠ 0)

include hfont

omit h hfont in
/-- The name of a class that has one. -/
theorem returns_deviceClass {classCode : BitVec 8}
    (hclass : classCode.toNat < deviceClasses.length) :
    Returns (HeapM.deviceClass classCode) k fun name k' =>
      name = deviceClasses.getD classCode.toNat [] ∧ k' = k := by
  unfold HeapM.deviceClass
  rw [List.getElem?_eq_getElem hclass, List.getD_eq_getElem _ _ hclass]
  exact returns_pure ⟨rfl, rfl⟩

/-- **A text that fits is printed.** -/
theorem ScanRel.print {str : List (BitVec 8)} (hstr : IsText str) (hJ : J D c k r)
    (hin : StoresInside t (r.print t str)) :
    Returns (HeapM.print t glyphBuffer str r.cursorPosition) k fun p k' =>
      p = (r.print t str).cursorPosition ∧ J D c k' (r.print t str) :=
  (h.renders D c).print ((storesInside_run_iff (.print str) r).mp hin).2
    (fun chr hchr _ _ _ => ⟨hfont, (hstr chr hchr).2⟩) hJ

/-- **A function is reported** with the header on its page. -/
theorem scans_reportFunction (hD : bytesOfPage p ⊆ D)
    (hclass : (deviceHeader m p).classCode.toNat < deviceClasses.length) :
    Scans t J D (HeapM.reportFunction t glyphBuffer p) [.report p (deviceHeader m p)] := by
  intro c k r hJ hin
  have hslash : IsText (chars " / ") := isText_chars rfl rfl
  -- the screens in between
  let header := deviceHeader m p
  let r₁ := r.print t (getVendorName header.vendorId)
  let r₂ := r₁.print t (chars " / ")
  let r₃ := r₂.print t (getDeviceName header.vendorId header.deviceId)
  let r₄ := r₃.print t (chars " / ")
  let r₅ := r₄.print t (deviceClasses.getD header.classCode.toNat [])
  let r₆ := r₅.print t (chars " / ")
  let r₇ := r₆.print t (getSubclassName header.classCode header.subclass)
  have hin₇ : StoresInside t r₇ := hin
  have hin₆ : StoresInside t r₆ := ((storesInside_run_iff (.print _) r₆).mp hin₇).1
  have hin₅ : StoresInside t r₅ := ((storesInside_run_iff (.print _) r₅).mp hin₆).1
  have hin₄ : StoresInside t r₄ := ((storesInside_run_iff (.print _) r₄).mp hin₅).1
  have hin₃ : StoresInside t r₃ := ((storesInside_run_iff (.print _) r₃).mp hin₄).1
  have hin₂ : StoresInside t r₂ := ((storesInside_run_iff (.print _) r₂).mp hin₃).1
  have hin₁ : StoresInside t r₁ := ((storesInside_run_iff (.print _) r₁).mp hin₂).1
  refine ((h.seesPage hJ hD).mono (by omega)).word16.bind ?_
  rintro _ _ ⟨rfl, rfl⟩
  refine (h.print hfont (isText_getVendorName _) hJ hin₁).bind ?_
  rintro _ k₁ ⟨rfl, hJ₁⟩
  refine (h.print hfont hslash hJ₁ hin₂).bind ?_
  rintro _ k₂ ⟨rfl, hJ₂⟩
  refine ((h.seesPage hJ₂ hD).mono (by omega)).word16.bind ?_
  rintro _ _ ⟨rfl, rfl⟩
  refine ((h.seesPage hJ₂ hD).shift (d := 2) (by omega)).word16.bind ?_
  rintro _ _ ⟨rfl, rfl⟩
  refine (h.print hfont (isText_getDeviceName _ _) hJ₂ hin₃).bind ?_
  rintro _ k₃ ⟨rfl, hJ₃⟩
  refine (h.print hfont hslash hJ₃ hin₄).bind ?_
  rintro _ k₄ ⟨rfl, hJ₄⟩
  refine ((h.seesPage hJ₄ hD).byte 11 (by omega)).bind ?_
  rintro _ _ ⟨rfl, rfl⟩
  refine (returns_deviceClass hclass).bind ?_
  rintro _ _ ⟨rfl, rfl⟩
  refine (h.print hfont (isText_className hclass) hJ₄ hin₅).bind ?_
  rintro _ k₅ ⟨rfl, hJ₅⟩
  refine (h.print hfont hslash hJ₅ hin₆).bind ?_
  rintro _ k₆ ⟨rfl, hJ₆⟩
  refine ((h.seesPage hJ₆ hD).byte 11 (by omega)).bind ?_
  rintro _ _ ⟨rfl, rfl⟩
  refine ((h.seesPage hJ₆ hD).byte 10 (by omega)).bind ?_
  rintro _ _ ⟨rfl, rfl⟩
  refine (h.print hfont (isText_getSubclassName _ _) hJ₆ hin₇).bind ?_
  rintro _ k₇ ⟨rfl, hJ₇⟩
  exact returns_pure ⟨rfl, (List.append_nil c).symm ▸ (h.renders D c).pixels hJ₇ rfl⟩

/-! ## The levels -/

/-- **`enumerate_function`.** -/
theorem scans_enumerateFunction {d f : BitVec 64}
    (hok : ∀ e ∈ enumerateFunction m d f, EventOk Page e) :
    Scans t J D (HeapM.enumerateFunction source ptm t glyphBuffer d f)
      (enumerateFunction m d f) := by
  refine Scans.visitPage h (hok _ List.mem_cons_self) fun hpresent => ?_
  refine scans_reportFunction h hfont Set.subset_union_right ?_
  exact hok _ (mem_of_present hpresent List.mem_cons_self)

/-- **`enumerate_device`.** -/
theorem scans_enumerateDevice {b d : BitVec 64}
    (hok : ∀ e ∈ enumerateDevice m b d, EventOk Page e) :
    Scans t J D (HeapM.enumerateDevice source ptm t glyphBuffer b d) (enumerateDevice m b d) := by
  refine Scans.visitPage h (hok _ List.mem_cons_self) fun hpresent => Scans.foldlM ?_
  intro function hfunction
  refine scans_enumerateFunction h hfont fun e he => hok e (mem_of_present hpresent ?_)
  exact List.mem_flatMap.mpr ⟨function, hfunction, he⟩

/-- **`enumerate_bus`.** -/
theorem scans_enumerateBus {b bus : BitVec 64}
    (hok : ∀ e ∈ enumerateBus m b bus, EventOk Page e) :
    Scans t J D (HeapM.enumerateBus source ptm t glyphBuffer b bus) (enumerateBus m b bus) := by
  refine Scans.visitPage h (hok _ List.mem_cons_self) fun hpresent => Scans.foldlM ?_
  intro device hdevice
  refine scans_enumerateDevice h hfont fun e he => hok e (mem_of_present hpresent ?_)
  exact List.mem_flatMap.mpr ⟨device, hdevice, he⟩

/-- **The loop over the buses of a record.** -/
theorem scans_busLoop {config : Addr} (hconfig : ∀ i < 16, config + BitVec.ofNat 64 i ∈ D)
    {fuel bus : ℕ} (hbus : bus + fuel < 2 ^ 32)
    (hfuel : (DeviceConfig.endBus m config).toNat - bus < fuel)
    (hok : ∀ b, bus ≤ b → b < (DeviceConfig.endBus m config).toNat →
      ∀ e ∈ enumerateBus m (DeviceConfig.baseAddr m config) (BitVec.ofNat 64 b), EventOk Page e) :
    Scans t J D (HeapM.busLoop source ptm t glyphBuffer config fuel (BitVec.ofNat 64 bus))
      ((List.range' bus ((DeviceConfig.endBus m config).toNat - bus)).flatMap
        fun b => enumerateBus m (DeviceConfig.baseAddr m config) (BitVec.ofNat 64 b)) := by
  induction fuel generalizing bus with
  | zero => exact absurd hfuel (Nat.not_lt_zero _)
  | succ fuel ih =>
      intro c k r hJ hin
      have hend := (DeviceConfig.endBus m config).isLt
      have hsees := h.sees hJ hconfig
      refine (hsees.byte 11 (by omega)).bind ?_
      rintro _ _ ⟨rfl, rfl⟩
      have hlt : BitVec.ofNat 64 bus < (DeviceConfig.endBus m config).setWidth 64 ↔
          bus < (DeviceConfig.endBus m config).toNat := by
        rw [BitVec.lt_def, BitVec.toNat_ofNat, BitVec.toNat_setWidth]
        omega
      by_cases hmore : bus < (DeviceConfig.endBus m config).toNat
      · have hcount : (DeviceConfig.endBus m config).toNat - bus =
            (DeviceConfig.endBus m config).toNat - (bus + 1) + 1 := by omega
        rw [hcount, List.range'_succ, List.flatMap_cons] at hin ⊢
        refine Returns.of_ite_pos (hlt.mpr hmore) ?_
        refine (hsees.mono (by omega)).word64.bind ?_
        rintro _ _ ⟨rfl, rfl⟩
        have hnext : BitVec.ofNat 64 bus + 1 = BitVec.ofNat 64 (bus + 1) :=
          (BitVec.ofNat_add _ _).symm
        rw [hnext]
        exact (scans_enumerateBus h hfont (hok bus le_rfl hmore)).bind
          (ih (by omega) (by omega) fun b hb => hok b (by omega)) c _ r hJ hin
      · have hnone : (DeviceConfig.endBus m config).toNat - bus = 0 := by omega
        rw [hnone] at hin ⊢
        exact Returns.of_ite_neg (fun hlt' => hmore (hlt.mp hlt')) (scans_pure c _ r hJ hin)

/-- The loop over the buses, from the first one on. -/
theorem scans_enumerateConfig {config : Addr}
    (hconfig : ∀ i < 16, config + BitVec.ofNat 64 i ∈ D)
    (hok : ∀ e ∈ enumerateConfig m config, EventOk Page e) :
    Scans t J D (HeapM.enumerateConfig source ptm t glyphBuffer config)
      (enumerateConfig m config) := by
  intro c k r hJ hin
  have hstart := (DeviceConfig.startBus m config).isLt
  have hend := (DeviceConfig.endBus m config).isLt
  refine ((h.sees hJ hconfig).byte 10 (by omega)).bind ?_
  rintro _ _ ⟨rfl, rfl⟩
  have hfirst : (m (config + BitVec.ofNat 64 10)).setWidth 64 =
      BitVec.ofNat 64 (DeviceConfig.startBus m config).toNat :=
    (BitVec.ofNat_toNat 64 (DeviceConfig.startBus m config)).symm
  rw [hfirst]
  refine scans_busLoop h hfont hconfig (by omega) (by omega)
    (fun b hb hlt e he => hok e ?_) c _ r hJ hin
  exact List.mem_flatMap.mpr ⟨b, List.mem_range'_1.mpr (by omega), he⟩

/-- **`enumerate_pci`.** -/
theorem scans_enumeratePci {mcfg : Addr} (hlength : ∀ i < 4, mcfg + 4 + BitVec.ofNat 64 i ∈ D)
    (hrecords : ∀ i < (mcfgEntries m mcfg).toInt.toNat,
      ∀ j < 16, deviceConfig mcfg i + BitVec.ofNat 64 j ∈ D)
    (hok : ∀ e ∈ enumeratePci m mcfg, EventOk Page e) :
    Scans t J D (HeapM.enumeratePci source ptm t glyphBuffer mcfg) (enumeratePci m mcfg) := by
  intro c k r hJ hin
  refine (h.sees hJ hlength).word32.bind ?_
  rintro _ _ ⟨rfl, rfl⟩
  refine Scans.foldlM (fun i hi => ?_) c _ r hJ hin
  refine scans_enumerateConfig h hfont (hrecords i (List.mem_range.mp hi)) fun e he => hok e ?_
  exact List.mem_flatMap.mpr ⟨i, hi, he⟩

end Rules

/-! ## The tables of the firmware -/

/-- **The tables lie in `D`**: what `prepare_acpi` reads of the root pointer, of the XSDT, of the
signatures of its tables, and of the MCFG table. -/
structure TablesIn (D : Set Addr) (m : Mem) (rsdp : Addr) : Prop where
  pointer : ∀ i < 8, rsdp + 24 + BitVec.ofNat 64 i ∈ D
  length : ∀ i < 4, RSDP2.xsdtAdrr m rsdp + 4 + BitVec.ofNat 64 i ∈ D
  entries : ∀ j < (sdtEntries m (RSDP2.xsdtAdrr m rsdp)).toInt.toNat, ∀ i < 8,
    RSDP2.xsdtAdrr m rsdp + sdtHeaderSize + (BitVec.ofNat 32 j * 8).signExtend 64 +
      BitVec.ofNat 64 i ∈ D
  signatures : ∀ j < (sdtEntries m (RSDP2.xsdtAdrr m rsdp)).toInt.toNat, ∀ i < 4,
    sdtEntry m (RSDP2.xsdtAdrr m rsdp) (BitVec.ofNat 32 j) + BitVec.ofNat 64 i ∈ D
  mcfg : ∀ i < 4,
    findTable m (RSDP2.xsdtAdrr m rsdp) mcfgSignature + 4 + BitVec.ofNat 64 i ∈ D
  records : ∀ j < (mcfgEntries m
      (findTable m (RSDP2.xsdtAdrr m rsdp) mcfgSignature)).toInt.toNat, ∀ i < 16,
    deviceConfig (findTable m (RSDP2.xsdtAdrr m rsdp) mcfgSignature) j + BitVec.ofNat 64 i ∈ D

/-- **`prepare_acpi`** returns, maps the pages of the walk and prints what it reports. -/
theorem scans_prepareAcpi {σ : Type} {source : FrameSource σ} {ptm : PageTableManager}
    {t : Target} {glyphBuffer : Addr} {m : Mem} {Page : Addr → Prop}
    {J : Set Addr → List Addr → KernelHeap σ → BasicRenderer → Prop} {D : Set Addr} {rsdp : Addr}
    (h : ScanRel source ptm t glyphBuffer m Page J) (hfont : t.psf1Header.charsize ≠ 0)
    (htables : TablesIn D m rsdp) (hok : ∀ e ∈ prepareAcpi m rsdp, EventOk Page e) :
    Scans t J D (HeapM.prepareAcpi source ptm t glyphBuffer rsdp) (prepareAcpi m rsdp) := by
  intro c k r hJ hin
  refine (h.sees hJ htables.pointer).word64.bind ?_
  rintro _ _ ⟨rfl, rfl⟩
  refine (returns_findTable (h.sees hJ htables.length)
    (fun j hj => h.sees hJ (htables.entries j hj))
    fun j hj => h.sees hJ (htables.signatures j hj)).bind ?_
  rintro _ _ ⟨rfl, rfl⟩
  exact scans_enumeratePci h hfont htables.mcfg htables.records hok c _ r hJ hin

end EtaOs
