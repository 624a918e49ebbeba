import EtaOs.Interrupts.Delivery

/-!
# Keys are handled once

If the data register of the keyboard is empty when the first controller is reset, every key that
is pressed is handled once and in order, however its way is interleaved with the accesses to the
ports, with the handlers, and with the timer; and wherever the system is behind `sti`, the
processor and the keyboard alone get all keys handled.  A key that is in the register at the
reset blocks the keyboard for good.

The order of steps is free: any run of the system is considered, and all that is asked of it is
that the slave controller raises no harmful line.  For the second part, that all keys are handled
in the end, the run is continued by the processor and the keyboard alone, and a count of what is
left goes down with each step.

* `Delivered`, `keys_delivered`: the register is empty at the reset.
* `keys_dead`: the register is full at the reset.
* `line_without_gate`: the line that is unmasked without a gate.
-/

namespace EtaOs

open Pic8259 PIC Simulation

/-! ## Statement -/

/-- The processor and the keyboard go on, and nothing else happens. -/
def GoesOn (b : Board) (s : System) (e : Event) (s' : System) : Prop :=
  DeliveryStep b false s e s' ∧ (e = .cpu ∨ e = .transfer)

/-- When the processor and the keyboard go on, all keys get handled. -/
def AllHandled (b : Board) (s : System) : Prop :=
  ∃ l t, Steps (GoesOn b) s l t ∧ t.cpu = .kernel ∧ t.pressed = s.pressed ∧ t.handled = s.pressed

/-- **Keys are delivered.**  The processor gets to the handlers only; the scancodes pressed so far
are those handled, the one in the hand of the handler, the one in the register, and those in the
keyboard, in this order; the screen shows what the handled ones draw; no more edges of the timer
are counted than there were; and when the processor and the keyboard go on, all keys get handled. -/
structure Delivered (b : Board) (k₀ : Keyboard) (s : System) : Prop where
  onGates : ∀ v, s.cpu ≠ .lost v
  once : s.pressed = s.handled ++ s.inHand ++ s.buffered ++ s.queue
  shown : s.keyboard = type b.next b.target (s.handled.map Typed.key) k₀
  ticked : s.ticks ≤ s.edges
  served : s.Booted ∨ s.full = false → AllHandled b s

/-! ## Progress -/

section Progress

variable {b : Board} {k₀ : Keyboard} {s s' : System} {e : Event}

/-- The statements of a handler that are left. -/
def Cpu.left : Cpu → ℕ
  | .keyboardInb => 4
  | .keyboardHandle _ | .pitTick => 3
  | .keyboardEnd | .pitEnd => 2
  | .iret => 1
  | _ => 0

/-- What is left to be done: keys to be transferred, interrupts to be taken, and statements of the
handler.  An interrupt weighs more than its handler, and a key more than its interrupt. -/
def System.left (s : System) : ℕ :=
  6 * s.queue.length + (if 1 ∈ s.pics.master.irr then 5 else 0) +
    (if 0 ∈ s.pics.master.irr then 4 else 0) + s.cpu.left

/-- A statement that is not a write to a port that resets the controller goes on. -/
theorem GoesOn.of_step (hstep : Step b s .cpu s') (hbooted : s.Booted) : GoesOn b s .cpu s' :=
  ⟨⟨hstep, trivial, fun _ _ hcpu => absurd hcpu (hbooted _)⟩, Or.inl rfl⟩

section Gates

variable (hne : b.handlers.keyboardIntHandler ≠ b.handlers.pitIntHandler)
  (htimer : (frameTable b.kernel 0x20).ist = 0) (hkeys : (frameTable b.kernel 0x21).ist = 0)

include hne htimer hkeys

/-- **In the kernel** an interrupt is taken or a key is transferred, as long as keys are left. -/
theorem DeliveryInv.kernel_goesOn (h : DeliveryInv b k₀ false s) (hcpu : s.cpu = .kernel) :
    s.handled = s.pressed ∨ ∃ e s', GoesOn b s e s' ∧ s'.Booted ∧ s'.pressed = s.pressed ∧
      s'.left < s.left := by
  obtain ⟨hserving, hline, -⟩ := h.run hcpu fun _ => Cpu.noConfusion
  have hbooted : s.Booted := fun rest hrest => Cpu.noConfusion (hcpu.symm.trans hrest)
  have hread : ¬ s.cpu.reading := by
    rw [hcpu]
    exact id
  -- an interrupt that is taken
  have htaken : ∀ {n : Fin 8}, n = 0 ∨ n = 1 → n ∈ s.pics.master.irr → ∃ e s', GoesOn b s e s' ∧
      s'.Booted ∧ s'.pressed = s.pressed ∧ s'.left < s.left := by
    intro n hn hirr
    obtain ⟨v, p, hacks⟩ := hserving.exists_acks hn hirr
    refine ⟨.cpu, _, GoesOn.of_step (Step.accept s v p hcpu hacks) hbooted, ?_, rfl, ?_⟩
    · exact fun rest hrest => by
        rcases hserving.acks hacks with ⟨rfl, -⟩ | ⟨rfl, -⟩
        · exact Cpu.noConfusion ((enter_pit hne htimer).symm.trans hrest)
        · exact Cpu.noConfusion ((enter_keyboard hkeys).symm.trans hrest)
    · unfold System.left
      rcases hserving.acks hacks with ⟨rfl, hmem, -, hirr'⟩ | ⟨rfl, hnot, hmem, -, hirr'⟩
      · dsimp only
        rw [enter_pit hne htimer, hirr', if_pos hmem, hcpu]
        simp [Cpu.left]
      · dsimp only
        rw [enter_keyboard hkeys, hirr', if_pos hmem, if_neg hnot, hcpu]
        simp [Cpu.left, hnot]
  by_cases h1 : 1 ∈ s.pics.master.irr
  · exact Or.inr (htaken (Or.inr rfl) h1)
  have hfull : s.full = false := by
    rw [← Bool.not_eq_true, hline.1]
    exact fun hor => hor.elim h1 hread
  have hhand : s.inHand = [] := congrArg Cpu.hand hcpu
  have honce := h.once
  unfold System.buffered at honce
  rw [hhand, hfull] at honce
  cases hq : s.queue with
  | nil =>
      rw [hq] at honce
      exact Or.inl (by simpa using honce.symm)
  | cons c q =>
      refine Or.inr ⟨.transfer, _, ⟨⟨Step.transfer s c q hq hfull, trivial, trivial⟩, Or.inr rfl⟩,
        hbooted, rfl, ?_⟩
      unfold System.left
      dsimp only
      rw [irr_raise_master h.settled, hq, if_neg h1, if_pos (Finset.mem_insert_self 1 _),
        List.length_cons]
      simp
      omega

/-- **Behind `sti`** something is left to be done, or all keys have been handled. -/
theorem DeliveryInv.goesOn (h : DeliveryInv b k₀ false s) (hbooted : s.Booted) :
    s.cpu = .kernel ∧ s.handled = s.pressed ∨ ∃ e s', GoesOn b s e s' ∧ s'.Booted ∧
      s'.pressed = s.pressed ∧ s'.left < s.left := by
  -- a statement of a handler
  have hstatement : ∀ {s'}, Step b s .cpu s' → s'.Booted → s'.pressed = s.pressed →
      s'.queue = s.queue → s'.pics.master.irr = s.pics.master.irr → s'.cpu.left < s.cpu.left →
      ∃ e s', GoesOn b s e s' ∧ s'.Booted ∧ s'.pressed = s.pressed ∧ s'.left < s.left := by
    intro s' hstep hbooted' hpressed hqueue hirr hlt
    refine ⟨.cpu, s', GoesOn.of_step hstep hbooted, hbooted', hpressed, ?_⟩
    unfold System.left
    rw [hqueue, hirr]
    omega
  have hend : ∀ {n : Fin 8}, s.cpu.lines = {n} →
      (picEndMaster s.pics).master.irr = s.pics.master.irr := by
    intro n hlines
    have hserving := (h.running hbooted).serving
    rw [hlines] at hserving
    exact hserving.picEndMaster.2
  cases hcpu : s.cpu with
  | boot rest => exact absurd hcpu (hbooted rest)
  | lost v => exact absurd hcpu (h.onGates v)
  | kernel =>
      rcases h.kernel_goesOn hne htimer hkeys hcpu with hdone | hstep
      · exact Or.inl ⟨rfl, hdone⟩
      · exact Or.inr hstep
  | keyboardInb =>
      exact Or.inr (hstatement (Step.keyboardInb s hcpu) (fun _ => Cpu.noConfusion) rfl rfl rfl
        (by rw [hcpu]; simp [Cpu.left]))
  | keyboardHandle c =>
      exact Or.inr (hstatement (Step.keyboardHandle s c hcpu) (fun _ => Cpu.noConfusion) rfl rfl rfl
        (by rw [hcpu]; simp [Cpu.left]))
  | keyboardEnd =>
      exact Or.inr (hstatement (Step.keyboardEnd s hcpu) (fun _ => Cpu.noConfusion) rfl rfl
        (hend (n := 1) (by rw [hcpu]; rfl)) (by rw [hcpu]; simp [Cpu.left]))
  | pitTick =>
      exact Or.inr (hstatement (Step.pitTick s hcpu) (fun _ => Cpu.noConfusion) rfl rfl rfl
        (by rw [hcpu]; simp [Cpu.left]))
  | pitEnd =>
      exact Or.inr (hstatement (Step.pitEnd s hcpu) (fun _ => Cpu.noConfusion) rfl rfl
        (hend (n := 0) (by rw [hcpu]; rfl)) (by rw [hcpu]; simp [Cpu.left]))
  | iret =>
      exact Or.inr (hstatement (Step.iret s hcpu) (fun _ => Cpu.noConfusion) rfl rfl rfl
        (by rw [hcpu]; simp [Cpu.left]))

/-- **All keys get handled**, once the processor is behind `sti`. -/
theorem DeliveryInv.served (h : DeliveryInv b k₀ false s) (hbooted : s.Booted) :
    AllHandled b s := by
  obtain ⟨l, t, hrun, ⟨-, -, hpressed⟩, hcpu, hdone⟩ := Steps.descend
    (P := fun t => DeliveryInv b k₀ false t ∧ t.Booted ∧ t.pressed = s.pressed)
    System.left
    (fun t ht => by
      obtain ⟨hinv, hbooted, hpressed⟩ := ht
      rcases hinv.goesOn hne htimer hkeys hbooted with hdone | ⟨e, t', hstep, hb, hp, hlt⟩
      · exact Or.inl hdone
      · exact Or.inr ⟨e, t', hstep, ⟨hinv.step hne htimer hkeys hstep.1, hb, hp.trans hpressed⟩,
          hlt⟩)
    ⟨h, hbooted, rfl⟩
  exact ⟨l, t, hrun, hcpu, hpressed, hdone.trans hpressed⟩

omit hne htimer hkeys in
/-- One access to a port, with an empty register, and then the rest. -/
theorem AllHandled.of_step (hserved : AllHandled b s') (hstep : Step b s .cpu s')
    (hfull : s.full = false)
    (hpressed : s'.pressed = s.pressed) : AllHandled b s := by
  obtain ⟨l, t, hrun, hkernel, heq, hhandled⟩ := hserved
  rw [hpressed] at heq hhandled
  exact ⟨.cpu :: l, t, Steps.cons s s' t .cpu l
    ⟨⟨hstep, trivial, fun _ _ _ _ => hfull⟩, Or.inl rfl⟩ hrun, hkernel, heq, hhandled⟩

/-- **The kernel gets to `sti`**, and with an empty register all keys get handled. -/
theorem DeliveryInv.served_boot (h : DeliveryInv b k₀ false s) {rest : PortProgram}
    (hcpu : s.cpu = .boot rest) (hfull : s.full = false) : AllHandled b s := by
  induction rest generalizing s with
  | done =>
      exact ((h.sti hcpu).served hne htimer hkeys fun _ => Cpu.noConfusion).of_step
        (Step.sti s hcpu) hfull rfl
  | out port value rest ih =>
      exact (ih (h.out hcpu fun _ _ _ _ => hfull) rfl hfull).of_step
        (Step.out s port value rest hcpu) hfull rfl
  | inp port rest ih =>
      exact (ih _ (h.inp hcpu) rfl hfull).of_step (Step.inp s port rest hcpu) hfull rfl

/-- **All keys get handled**, behind `sti` or with an empty register. -/
theorem DeliveryInv.allHandled (h : DeliveryInv b k₀ false s) (hready : s.Booted ∨ s.full = false) :
    AllHandled b s := by
  rcases s.boot_or_booted with ⟨rest, hrest⟩ | hbooted
  · exact h.served_boot hne htimer hkeys hrest
      (hready.resolve_left fun hbooted => hbooted rest hrest)
  · exact h.served hne htimer hkeys hbooted

end Gates

end Progress

/-! ## A machine that the firmware has just handed over -/

/-- The accesses to the ports can be made one after the other. -/
theorem exists_boot_run {b : Board} {full : Bool} {rest : PortProgram} {s : System}
    (hcpu : s.cpu = .boot rest) (hfull : s.full = full) :
    ∃ l, Steps (DeliveryStep b full) s l { s with cpu := .kernel, pics := rest.run s.pics } := by
  induction rest generalizing s with
  | done =>
      exact ⟨[.cpu], Steps.single ⟨Step.sti s hcpu, trivial, fun _ _ _ _ => hfull⟩⟩
  | out port value rest ih =>
      obtain ⟨l, hrun⟩ := ih (s := { s with cpu := .boot rest, pics := outb port value s.pics })
        rfl hfull
      exact ⟨.cpu :: l, Steps.cons _ _ _ _ _
        ⟨Step.out s port value rest hcpu, trivial, fun _ _ _ _ => hfull⟩ hrun⟩
  | inp port rest ih =>
      obtain ⟨l, hrun⟩ := ih (inb port (configs s.pics))
        (s := { s with cpu := .boot (rest (inb port (configs s.pics))) }) rfl hfull
      exact ⟨.cpu :: l, Steps.cons _ _ _ _ _
        ⟨Step.inp s port rest hcpu, trivial, fun _ _ _ _ => hfull⟩ hrun⟩

/-- A kernel whose frame 1 is free and holds zeros. -/
def clearFrame : Kernel where
  mem a := if a = 0x8000 then 0x80 else 0
  cr3 := none
  requests := []
  alloc := ⟨⟨2, 0x8000⟩, 1, 0, 0, 0, true, 0⟩

/-- Its table behind a screen of 640 by 480 pixels. -/
def clearBoard : Board where
  next := 0
  target := screen 640 480
  handlers := ⟨0x200000, 0x200100, 0x200200, 0x200300, 0x200400⟩
  kernel := clearFrame

theorem clearBoard_ist : (frameTable clearBoard.kernel 0x20).ist = 0 ∧
    (frameTable clearBoard.kernel 0x21).ist = 0 := by
  decide +kernel

/-- Controllers that have not been programmed, and a register that holds a key or not. -/
def handedOver (full : Bool) : System where
  pics := ⟨⟨∅, ∅, ⟨0, 0, 0, 0, .ready, false, false⟩⟩, ⟨∅, ∅, ⟨0, 0, 0, 0, .ready, false, false⟩⟩,
    false⟩
  cpu := .boot bootPorts
  data := 0x1e
  full := full
  queue := []
  keyboard := Keyboard.init fun _ => 0
  edges := 0
  ticks := 0
  pressed := if full then [0x1e] else []
  handled := []

theorem atRemap_handedOver (full : Bool) : AtRemap (handedOver full) where
  cpu := rfl
  settled := by
    show false = _
    exact (Chip.output_eq_false fun n => Chip.not_offers_of_irr (Finset.notMem_empty n)).symm
  ticks := rfl
  handled := rfl
  pressed := by cases full <;> rfl

/-! ## The results -/

section Results

variable {b : Board} {s u : System} {events : List Event}

/-- **Keys are handled once and in order.**  From the first access of `remap_pic` on, in every
interleaving of the accesses to the ports, of keys, of the edges of the timer and other devices,
and of the handlers, with the register of the keyboard empty when the first controller is reset:
the keys that are pressed are delivered, whatever state the firmware has left the controllers in,
as long as no device behind the second controller raises a line before `sti`, or the one line of
it that is unmasked. -/
theorem keys_delivered (hne : b.handlers.keyboardIntHandler ≠ b.handlers.pitIntHandler)
    (htimer : (frameTable b.kernel 0x20).ist = 0) (hkeys : (frameTable b.kernel 0x21).ist = 0)
    (hstart : AtRemap s) (hrun : Steps (DeliveryStep b false) s events u) :
    Delivered b s.keyboard u := by
  have h := DeliveryInv.of_run hne htimer hkeys hstart hrun
  refine ⟨h.onGates, h.once, h.shown, ?_, h.allHandled hne htimer hkeys⟩
  rcases u.boot_or_booted with ⟨rest, hrest⟩ | hbooted
  · rw [(h.boot rest hrest).ticks]
    exact Nat.zero_le _
  · have hticked := (h.running hbooted).ticked
    omega

/-- A key that is pressed before the first access is handled behind `sti`. -/
theorem keys_delivered_handedOver : ∃ u, Steps (DeliveryStep clearBoard false) (handedOver false)
    [.press 0x1e] u ∧ Delivered clearBoard (handedOver false).keyboard u ∧ u.pressed = [0x1e] ∧
      ∃ l t, Steps (GoesOn clearBoard) u l t ∧ t.handled = [0x1e] := by
  have hrun : Steps (DeliveryStep clearBoard false) (handedOver false) [.press 0x1e] _ :=
    Steps.single ⟨Step.press (handedOver false) 0x1e, trivial, trivial⟩
  have h := keys_delivered (by decide) clearBoard_ist.1 clearBoard_ist.2 (atRemap_handedOver false)
    hrun
  obtain ⟨l, t, hgoes, -, -, hhandled⟩ := h.served (Or.inr rfl)
  exact ⟨_, hrun, h, rfl, l, t, hgoes, hhandled⟩

/-- **A key in the register at the reset blocks the keyboard.**  No key is ever handled then:
behind `sti` the register stays full, and the timer alone interrupts the kernel. -/
theorem keys_dead (hne : b.handlers.keyboardIntHandler ≠ b.handlers.pitIntHandler)
    (htimer : (frameTable b.kernel 0x20).ist = 0) (hkeys : (frameTable b.kernel 0x21).ist = 0)
    (hstart : AtRemap s) (hrun : Steps (DeliveryStep b true) s events u) :
    u.handled = [] ∧ u.keyboard = s.keyboard ∧ (u.Booted → u.full = true ∧
      ∀ v p, u.cpu = .kernel → u.pics.Acks v p → v = 0x20) := by
  have h := DeliveryInv.of_run hne htimer hkeys hstart hrun
  obtain ⟨hhandled, -⟩ := h.dead rfl
  refine ⟨hhandled, ?_, fun hbooted => ?_⟩
  · rw [h.shown, hhandled]
    rfl
  · obtain ⟨hserving, hline, -⟩ := h.running hbooted
    refine ⟨hline.1, fun v p hcpu hacks => ?_⟩
    rw [hcpu] at hserving
    rcases hserving.acks hacks with ⟨hv, -⟩ | ⟨-, -, hmem, -⟩
    · exact hv
    · exact absurd hmem hline.2.1

/-- With a key in the register when the firmware hands over, the kernel boots, and does not handle
it. -/
theorem keys_dead_handedOver : ∃ events u, Steps (DeliveryStep clearBoard true) (handedOver true)
    events u ∧ u.cpu = .kernel ∧ u.pressed = [0x1e] ∧ u.handled = [] ∧ u.full = true := by
  obtain ⟨events, hrun⟩ := exists_boot_run (b := clearBoard) (s := handedOver true) rfl rfl
  obtain ⟨hhandled, -, hblocked⟩ := keys_dead (by decide) clearBoard_ist.1 clearBoard_ist.2
    (atRemap_handedOver true) hrun
  exact ⟨events, _, hrun, rfl, rfl, hhandled, (hblocked fun _ => Cpu.noConfusion).1⟩

/-- **A device on the line that `init_kernel` unmasks has no gate.**  Wherever the kernel runs and
the timer and the keyboard are not waiting, a request of such a device is an interrupt with the
vector 0x2c, and there is no other one.  Its entry is what the frame of the table held; unless that
is marked present, the processor is lost. -/
theorem line_without_gate {full : Bool}
    (hne : b.handlers.keyboardIntHandler ≠ b.handlers.pitIntHandler)
    (htimer : (frameTable b.kernel 0x20).ist = 0) (hkeys : (frameTable b.kernel 0x21).ist = 0)
    (hstart : AtRemap s) (hrun : Steps (DeliveryStep b full) s events u) (hcpu : u.cpu = .kernel)
    (h0 : 0 ∉ u.pics.master.irr) (h1 : 1 ∉ u.pics.master.irr) :
    b.idt 0x2c = frameTable b.kernel 0x2c ∧
      (∀ v p, (u.pics.raise (.slave 4)).Acks v p → v = 0x2c) ∧
        (∃ w, Steps (Step b) u [.request (.slave 4), .cpu] w) ∧
          ∀ w, Steps (Step b) u [.request (.slave 4), .cpu] w →
            ¬ (frameTable b.kernel 0x2c).Present → w.cpu = .lost 0x2c := by
  have h := DeliveryInv.of_run hne htimer hkeys hstart hrun
  obtain ⟨hserving, -, -⟩ := h.run hcpu fun _ => Cpu.noConfusion
  obtain ⟨⟨p, hacks⟩, hall⟩ := hserving.acks_slave h0 h1
  have hentry : b.idt 0x2c = frameTable b.kernel 0x2c := by
    unfold Board.idt
    rw [table_prepareInterrupts]
    refine foldl_installGate_of_notMem _ _ ?_
    rw [show b.handlers.gates.map Prod.fst = installed from rfl]
    decide
  have hrequest : Step b u (.request (.slave 4)) { u with pics := u.pics.raise (.slave 4) } :=
    Step.request u (.slave 4) fun _ hl => Line.noConfusion hl
  refine ⟨hentry, hall, ⟨_, Steps.cons _ _ _ _ _ hrequest (Steps.single
    (Step.accept { u with pics := u.pics.raise (.slave 4) } 0x2c p hcpu hacks))⟩, ?_⟩
  rintro w hsteps habsent
  obtain ⟨u', hfirst, hrest⟩ := Steps.cons_iff.mp hsteps
  obtain ⟨w', hlast, hnil⟩ := Steps.cons_iff.mp hrest
  obtain rfl := Steps.nil_iff.mp hnil
  cases hfirst with
  | request l hl =>
      cases hlast with
      | accept v p' hcpu' hacks' =>
          obtain rfl := hall v p' hacks'
          have hnot : ¬ ((b.idt 0x2c).typeAttr.getLsbD 7 = true ∧ (b.idt 0x2c).ist = 0) := by
            rw [hentry]
            exact fun hpresent => habsent hpresent.1
          exact if_neg hnot
      | out port value rest hcpu' => exact Cpu.noConfusion (hcpu.symm.trans hcpu')
      | inp port rest hcpu' => exact Cpu.noConfusion (hcpu.symm.trans hcpu')
      | sti hcpu' => exact Cpu.noConfusion (hcpu.symm.trans hcpu')
      | keyboardInb hcpu' => exact Cpu.noConfusion (hcpu.symm.trans hcpu')
      | keyboardHandle c hcpu' => exact Cpu.noConfusion (hcpu.symm.trans hcpu')
      | keyboardEnd hcpu' => exact Cpu.noConfusion (hcpu.symm.trans hcpu')
      | pitTick hcpu' => exact Cpu.noConfusion (hcpu.symm.trans hcpu')
      | pitEnd hcpu' => exact Cpu.noConfusion (hcpu.symm.trans hcpu')
      | iret hcpu' => exact Cpu.noConfusion (hcpu.symm.trans hcpu')

/-- The entry of a frame of zeros is not present. -/
theorem line_without_gate_handedOver : ∃ events u w, Steps (DeliveryStep clearBoard false)
    (handedOver false) events u ∧ u.cpu = .kernel ∧
      Steps (Step clearBoard) u [.request (.slave 4), .cpu] w ∧ w.cpu = .lost 0x2c := by
  obtain ⟨events, hrun⟩ := exists_boot_run (b := clearBoard) (s := handedOver false) rfl rfl
  obtain ⟨-, -, ⟨w, hsteps⟩, hlost⟩ := line_without_gate (by decide) clearBoard_ist.1
    clearBoard_ist.2 (atRemap_handedOver false) hrun rfl (by decide +kernel) (by decide +kernel)
  have habsent : (frameTable clearBoard.kernel 0x2c).typeAttr.getLsbD 7 = false := by decide +kernel
  refine ⟨events, _, w, hrun, rfl, hsteps, hlost w hsteps fun hpresent => ?_⟩
  exact absurd (hpresent.symm.trans habsent) (by decide)

end Results

end EtaOs
