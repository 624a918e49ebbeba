import EtaOs.Bootloader.EfiMain

/-!
# What a failed call does to the boot

`efi_main` has no way out: a run either dereferences a NULL pointer or starts the kernel.  It
starts the kernel unless one of the calls that return a pointer failed; a bad header, a
failed `AllocatePages`, `Read` or `SetPosition` and a rejected `ExitBootServices` go by.

A failure is any answer of the firmware with an error status.  What should happen then is that the
boot stops; what does happen follows the control flow alone, so it is settled for every stream of
answers at once, by what each part of the program does to the pointers it was to fill.

* `Event.LosesPointer`: a failed call that returns a pointer.
* `ends_efiMain`: how runs end.
* `stops_iff`: no run with a failure stops.
-/

namespace EtaOs

open ByteMemory Programs

namespace Bootloader

/-- A failed call that was to return a pointer. -/
def Event.LosesPointer : Event → Prop
  | .call .handleProtocol reply => reply.error = true
  | .call .openVolume reply => reply.error = true
  | .call (.open _) reply => reply.status ≠ 0
  | .call (.allocatePool _) reply => reply.error = true
  | .call .locateProtocol reply => reply.error = true
  | _ => False

/-- Some pointer was lost before the state. -/
def PointerLost (s : Uefi) : Prop := ∃ e ∈ s.trace, e.LosesPointer

/-- The kernel was started before the state. -/
def Started (s : Uefi) : Prop := ∃ entry info, Event.kernelStart entry info ∈ s.trace

/-! ## Lost pointers -/

theorem PointerLost.called {s : Uefi} (h : PointerLost s) (service : Service) (r : Reply) :
    PointerLost (s.called service r) := by
  obtain ⟨e, he, hlost⟩ := h
  exact ⟨e, List.mem_cons_of_mem _ he, hlost⟩

theorem PointerLost.log {s : Uefi} (h : PointerLost s) (e : Event) : PointerLost (s.log e) := by
  obtain ⟨e', he, hlost⟩ := h
  exact ⟨e', List.mem_cons_of_mem _ he, hlost⟩

theorem pointerLost_called {s : Uefi} {service : Service} {r : Reply}
    (h : (Event.call service r).LosesPointer) : PointerLost (s.called service r) :=
  ⟨_, List.mem_cons_self, h⟩

theorem Reply.error_of_out {α : Type} {r : Reply} {a : α} (h : r.out a = none) :
    r.error = true := by
  unfold Reply.out at h
  split at h
  next herr => exact herr
  next => exact absurd h (Option.some_ne_none a)

section Runs

variable {fw : Firmware} {s : Uefi}

/-- A part of the boot that ends early only after a pointer was lost, and forgets no loss. -/
def OnlyLosses {α : Type} (x : Efi α) (s : Uefi) : Prop :=
  Ends x s (fun _ t => PointerLost s → PointerLost t) fun _ t => PointerLost t

theorem ends_orVolume {directory fileSystem : Option Unit} (h : fileSystem = none → PointerLost s) :
    Ends (orVolume fw directory fileSystem) s (fun p t => p = none → PointerLost t)
      fun _ t => PointerLost t := by
  unfold orVolume
  cases directory with
  | some d => exact fun h => absurd h (Option.some_ne_none d)
  | none =>
      dsimp only
      rw [ends_bind]
      refine ends_deref (fun _ _ => ?_) h
      rw [ends_bind, ends_call, ends_pure]
      exact fun h => pointerLost_called (Reply.error_of_out h)

/-- `load_file` answers NULL only when `Open` failed. -/
theorem ends_loadFile (directory : Option Unit) (path : String) :
    Ends (loadFile fw directory path) s (fun p t => p = none → PointerLost t)
      fun _ t => PointerLost t := by
  unfold loadFile
  rw [ends_bind, ends_call, ends_bind]
  refine ends_deref (fun _ _ => ?_) fun h => pointerLost_called (Reply.error_of_out h)
  rw [ends_bind, ends_call]
  refine (ends_orVolume ?_).bind fun d t hd => ?_
  · intro h
    refine pointerLost_called ?_
    exact Reply.error_of_out h
  rw [ends_bind]
  refine ends_deref (fun _ _ => ?_) hd
  rw [ends_bind, ends_call]
  split
  next hstatus => exact fun _ => pointerLost_called hstatus
  next => exact fun h => absurd h (Option.some_ne_none path)

theorem ends_loadPsf1Font (directory : Option Unit) (path : String) :
    Ends (loadPsf1Font fw directory path) s (fun _ _ => True) fun _ t => PointerLost t := by
  unfold loadPsf1Font
  refine (ends_loadFile directory path).bind fun p t hp => ?_
  cases p with
  | none => exact trivial
  | some font =>
      rw [ends_bind, ends_allocatePool, ends_bind, ends_read, ends_bind]
      refine ends_deref (fun b _ => ?_) fun h => ?_
      · dsimp only
        split
        · exact trivial
        · rw [ends_bind, ends_setPosition, ends_bind, ends_allocatePool, ends_bind, ends_read,
            ends_bind, ends_allocatePool, ends_bind]
          exact ends_deref (fun _ _ => trivial) fun h => pointerLost_called (Reply.error_of_out h)
      · refine PointerLost.called (pointerLost_called ?_) _ _
        exact Reply.error_of_out h

theorem ends_initGop : Ends (initGop fw) s (fun p t => p = none → PointerLost t)
    fun _ t => PointerLost t := by
  unfold initGop
  rw [ends_bind, ends_call]
  split
  next h => exact fun _ => pointerLost_called h
  next => exact fun h => absurd h (Option.some_ne_none fw.gop)

/-- A segment is loaded whatever the firmware answers. -/
theorem onlyLosses_loadSegment (kernel : String) (header : Elf64Phdr) :
    OnlyLosses (loadSegment fw kernel header) s := by
  unfold OnlyLosses loadSegment
  rw [ends_bind, ends_call, ends_bind, ends_setPosition, ends_bind, ends_read, ends_modify]
  intro h
  refine PointerLost.called ?_ _ _
  split <;> exact (h.called _ _).called _ _

theorem onlyLosses_loadSegments (kernel : String) (header : Elf64Ehdr) (pHeaders : Option Buffer)
    (fuel : ℕ) : ∀ (offset : ℕ) (s : Uefi), (pHeaders = none → PointerLost s) →
      OnlyLosses (loadSegments fw kernel header pHeaders fuel offset) s := by
  induction fuel with
  | zero => exact fun _ _ _ h => h
  | succ fuel ih =>
      intro offset s hp
      unfold OnlyLosses loadSegments
      split
      · rw [ends_bind]
        refine ends_deref (fun table htable => ?_) hp
        have hne : ∀ t : Uefi, pHeaders = none → PointerLost t :=
          fun t h => absurd (htable.symm.trans h) (Option.some_ne_none table)
        dsimp only
        split
        · rw [ends_bind]
          refine (onlyLosses_loadSegment kernel _).mono (fun _ t ht => ?_) fun _ _ h => h
          exact (ih _ t (hne t)).mono (fun _ _ h' h => h' (ht h)) fun _ _ h => h
        · exact ih _ s (hne s)
      · exact fun h => h

theorem ends_readProgramHeaders (kernel : String) (header : Elf64Ehdr) :
    Ends (readProgramHeaders fw kernel header) s (fun p t => p = none → PointerLost t)
      fun _ t => PointerLost t := by
  unfold readProgramHeaders
  rw [ends_bind, ends_setPosition, ends_bind, ends_allocatePool, ends_bind, ends_read, ends_pure]
  intro h
  refine PointerLost.called (pointerLost_called ?_) _ _
  exact Reply.error_of_out (Option.map_eq_none_iff.mp h)

theorem ends_loadKernel : Ends (loadKernel fw) s (fun _ _ => True) fun _ t => PointerLost t := by
  unfold loadKernel
  refine (ends_loadFile none "kernel.elf").bind fun p t hp => ?_
  rw [ends_bind]
  refine ends_deref (fun kernel _ => ?_) hp
  have hread : Ends (readHeader fw kernel) t (fun _ _ => True) fun _ t => PointerLost t := trivial
  refine hread.bind fun header t _ => ?_
  have hcheck : Ends (checkHeader header) t (fun _ _ => True) fun _ t => PointerLost t := by
    unfold checkHeader
    split <;> exact trivial
  refine hcheck.bind fun _ t _ => ?_
  refine (ends_readProgramHeaders kernel header).bind fun pHeaders t hp => ?_
  refine (onlyLosses_loadSegments kernel header pHeaders _ 0 t hp).bind fun _ _ _ => ?_
  exact trivial

/-- **How runs end**: with the kernel started, or early, and then some pointer was lost. -/
theorem ends_efiMain : Ends (efiMain fw) s (fun _ t => Started t) fun _ t => PointerLost t := by
  unfold efiMain
  refine ends_loadKernel.bind fun header t _ => ?_
  refine (ends_loadPsf1Font none _).bind fun newFont t _ => ?_
  refine ends_initGop.bind fun newFramebuffer t hp => ?_
  rw [ends_bind]
  refine ends_deref (fun framebuffer _ => ?_) hp
  rw [ends_bind, ends_call, ends_bind, ends_allocatePool, ends_bind, ends_call, ends_bind,
    ends_get, ends_bind, ends_call, ends_bind, ends_log, ends_pure]
  exact ⟨_, _, List.mem_cons_self⟩

end Runs

/-! ## Failures -/

/-- The events of a run. -/
def events {α : Type} : EStateM.Result Fault Uefi α → List Event
  | .ok _ s => s.trace
  | .error _ s => s.trace

/-- The run of the boot loader. -/
def run (fw : Firmware) (mem : Mem) : EStateM.Result Fault Uefi (BitVec 64) :=
  efiMain fw (Uefi.start mem)

/-- Something failed in the run: a call, or the check of the kernel's header. -/
def AnyFailed (r : EStateM.Result Fault Uefi (BitVec 64)) : Prop := ∃ e ∈ events r, e.Failed

/-- **The run stops the boot**: it starts no kernel and dereferences no NULL pointer. -/
structure Stops (r : EStateM.Result Fault Uefi (BitVec 64)) : Prop where
  noStart : ∀ entry info, Event.kernelStart entry info ∉ events r
  noNull : ∀ s, r ≠ .error .nullDereference s

/-- No run stops. -/
theorem not_stops (fw : Firmware) (mem : Mem) : ¬ Stops (run fw mem) := by
  intro h
  have hends : Ends (efiMain fw) (Uefi.start mem) (fun _ t => Started t) fun _ t => PointerLost t :=
    ends_efiMain
  unfold Ends at hends
  rcases hr : efiMain fw (Uefi.start mem) with ⟨a, t⟩ | ⟨e, t⟩
  · rw [hr] at hends
    obtain ⟨entry, info, hmem⟩ := hends
    refine h.noStart entry info ?_
    unfold run
    rw [hr]
    exact hmem
  · cases e
    exact h.noNull t hr

/-- **The runs that stop on every failure** are those without one. -/
theorem stops_iff (fw : Firmware) (mem : Mem) :
    (AnyFailed (run fw mem) → Stops (run fw mem)) ↔ ¬ AnyFailed (run fw mem) :=
  ⟨fun h hfail => not_stops fw mem (h hfail), fun h hfail => absurd hfail h⟩

/-- A firmware on which every call succeeds, with files of zeros. -/
def zeroFiles : Firmware where
  reply _ := ⟨0, 2 ^ 64⟩
  file _ _ := 0
  pool _ _ := 0
  stack _ := 0
  gop := ⟨0, 0, 0, 0, 0⟩
  fileInfoSize := 0
  mapSize := 0
  descriptorSize := 0
  numberOfTableEntries := 0
  configurationTable _ := ⟨acpi20TableGuid, 0⟩

/-- A kernel file of zeros is no ELF file; it is reported and then started at address 0. -/
theorem not_stops_zeroFiles :
    ¬ (AnyFailed (run zeroFiles fun _ => 0) → Stops (run zeroFiles fun _ => 0)) := by
  intro h
  have hbad : (events (run zeroFiles fun _ => 0))[15]? = some .badHeader := rfl
  have hstart : ∃ info, (events (run zeroFiles fun _ => 0))[0]? =
      some (.kernelStart 0 info) := ⟨_, rfl⟩
  obtain ⟨info, hinfo⟩ := hstart
  exact (h ⟨_, List.mem_of_getElem? hbad, trivial⟩).noStart 0 info (List.mem_of_getElem? hinfo)

end Bootloader

end EtaOs
