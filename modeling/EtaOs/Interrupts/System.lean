import EtaOs.Input.Keyboard
import EtaOs.Interrupts.Idt
import EtaOs.Interrupts.Remap

/-!
# Interrupts, from the device to the handler

A key that is pressed waits in the keyboard until the data register of its controller is free,
goes there and raises line 1; the handler reads the register, which frees it, handles the
scancode and ends the interrupt.  The timer raises line 0.  All this goes on between any two
statements of the kernel, from the first access of `remap_pic` on.

The system is a step relation over the states of four parties.  Their steps interleave freely,
which is the point: a handler may be entered between any two accesses to a port, and a key may be
pressed while the controllers are being set up.

* `System`, `Event`, `Step`: the processor, the controllers, the keyboard and the timer.
* `enter`: where the gate of a vector leads, read off the table that `prepare_interrupts` loads.
* `Serving`: what the controllers keep to behind `sti`; `Serving.acks`, the interrupts that are
  delivered.
-/

namespace EtaOs

open Pic8259 PIC

/-! ## The system -/

/-- The statement of the processor that is next.  Behind a gate that is not one of the handlers
of the devices it is lost. -/
inductive Cpu
  | boot (rest : PortProgram)
  | kernel
  | keyboardInb
  | keyboardHandle (scancode : BitVec 8)
  | keyboardEnd
  | pitTick
  | pitEnd
  | iret
  | lost (vector : BitVec 8)

/-- What is fixed: the byte behind the table of the keyboard, the screen, the handlers, and the
kernel in which `prepare_interrupts` is called. -/
structure Board where
  next : BitVec 8
  target : Target
  handlers : Handlers
  kernel : Kernel

/-- The table that is loaded. -/
def Board.idt (b : Board) : BitVec 8 → IDTDescEntry :=
  table (prepareInterrupts b.handlers b.kernel).1 (prepareInterrupts b.handlers b.kernel).2.mem

/-- The controllers, the processor, the data register of the keyboard controller and whether it is
full, the keys that wait in the keyboard, and what `handle_keyboard` has made of the others.
`edges` and `ticks` count the edges of the timer and the calls of `tick`; `pressed` and `handled`
list the scancodes pressed so far and those that `handle_keyboard` was called with. -/
structure System where
  pics : Pair
  cpu : Cpu
  data : BitVec 8
  full : Bool
  queue : List (BitVec 8)
  keyboard : Keyboard
  edges : ℕ
  ticks : ℕ
  pressed : List (BitVec 8)
  handled : List (BitVec 8)

/-- What happens next: a key is pressed, the controller of the keyboard takes the next one, the
timer or another device raises its line, or the processor goes on. -/
inductive Event
  | press (scancode : BitVec 8)
  | transfer
  | timer
  | request (l : Line)
  | cpu

/-- Where the gate of a vector leads: to the handlers of the devices, when it is present and does
not switch to a stack that there is not. -/
def enter (b : Board) (v : BitVec 8) : Cpu :=
  if (b.idt v).typeAttr.getLsbD 7 = true ∧ (b.idt v).ist = 0 then
    if (b.idt v).getOffset = b.handlers.keyboardIntHandler then .keyboardInb
    else if (b.idt v).getOffset = b.handlers.pitIntHandler then .pitTick
    else .lost v
  else .lost v

/-- **One step.**  The processor takes interrupts in the kernel only: before `sti` and in the
handlers they are disabled. -/
inductive Step (b : Board) : System → Event → System → Prop
  | press (s : System) (c : BitVec 8) :
      Step b s (.press c) { s with queue := s.queue ++ [c], pressed := s.pressed ++ [c] }
  | transfer (s : System) (c : BitVec 8) (q : List (BitVec 8)) (hq : s.queue = c :: q)
      (hfull : s.full = false) :
      Step b s .transfer
        { s with data := c, full := true, queue := q, pics := s.pics.raise (.master 1) }
  | timer (s : System) :
      Step b s .timer { s with edges := s.edges + 1, pics := s.pics.raise (.master 0) }
  | request (s : System) (l : Line) (hl : ∀ n, l = .master n → 2 < n) :
      Step b s (.request l) { s with pics := s.pics.raise l }
  | out (s : System) (port : BitVec 16) (value : BitVec 8) (rest : PortProgram)
      (hcpu : s.cpu = .boot (.out port value rest)) :
      Step b s .cpu { s with cpu := .boot rest, pics := outb port value s.pics }
  | inp (s : System) (port : BitVec 16) (rest : BitVec 8 → PortProgram)
      (hcpu : s.cpu = .boot (.inp port rest)) :
      Step b s .cpu { s with cpu := .boot (rest (inb port (configs s.pics))) }
  | sti (s : System) (hcpu : s.cpu = .boot .done) : Step b s .cpu { s with cpu := .kernel }
  | accept (s : System) (v : BitVec 8) (p : Pair) (hcpu : s.cpu = .kernel)
      (hacks : s.pics.Acks v p) : Step b s .cpu { s with cpu := enter b v, pics := p }
  | keyboardInb (s : System) (hcpu : s.cpu = .keyboardInb) :
      Step b s .cpu { s with cpu := .keyboardHandle s.data, full := false }
  | keyboardHandle (s : System) (c : BitVec 8) (hcpu : s.cpu = .keyboardHandle c) :
      Step b s .cpu
        { s with
          cpu := .keyboardEnd
          keyboard := handleKeyboard b.next b.target c s.keyboard
          handled := s.handled ++ [c] }
  | keyboardEnd (s : System) (hcpu : s.cpu = .keyboardEnd) :
      Step b s .cpu { s with cpu := .iret, pics := picEndMaster s.pics }
  | pitTick (s : System) (hcpu : s.cpu = .pitTick) :
      Step b s .cpu { s with cpu := .pitEnd, ticks := s.ticks + 1 }
  | pitEnd (s : System) (hcpu : s.cpu = .pitEnd) :
      Step b s .cpu { s with cpu := .iret, pics := picEndMaster s.pics }
  | iret (s : System) (hcpu : s.cpu = .iret) : Step b s .cpu { s with cpu := .kernel }

/-- The scancode that the handler has read and not yet handled. -/
def Cpu.hand : Cpu → List (BitVec 8)
  | .keyboardHandle c => [c]
  | _ => []

namespace System

/-- The scancode in the hand of the handler. -/
def inHand (s : System) : List (BitVec 8) := s.cpu.hand

/-- The scancode in the data register. -/
def buffered (s : System) : List (BitVec 8) := if s.full then [s.data] else []

/-- The processor has come to `sti`. -/
def Booted (s : System) : Prop := ∀ rest, s.cpu ≠ .boot rest

end System

/-! ## The gates -/

section Gates

variable {b : Board}

/-- A gate that is put in, over an entry with no stack index, is entered. -/
theorem idt_install {gate : BitVec 8 × BitVec 64} (hgate : gate ∈ b.handlers.gates)
    (hist : (frameTable b.kernel gate.1).ist = 0) :
    (b.idt gate.1).typeAttr.getLsbD 7 = true ∧ (b.idt gate.1).ist = 0 ∧
      (b.idt gate.1).getOffset = gate.2 := by
  have hnodup : (b.handlers.gates.map Prod.fst).Nodup := by
    rw [show b.handlers.gates.map Prod.fst = installed from rfl]
    decide
  unfold Board.idt
  rw [table_prepareInterrupts, foldl_installGate_of_mem _ hnodup _ hgate]
  have hpresent : IDT_TA_INTERRUPTGATE.getLsbD 7 = true := by decide
  exact ⟨hpresent, hist, IDTDescEntry.getOffset_setOffset (frameTable b.kernel gate.1) gate.2⟩

variable (hne : b.handlers.keyboardIntHandler ≠ b.handlers.pitIntHandler)
  (htimer : (frameTable b.kernel 0x20).ist = 0) (hkeys : (frameTable b.kernel 0x21).ist = 0)

include hkeys in
theorem enter_keyboard : enter b 0x21 = .keyboardInb := by
  have hgate : (0x21, b.handlers.keyboardIntHandler) ∈ b.handlers.gates := by
    simp [Handlers.gates]
  obtain ⟨hpresent, hist, hoffset⟩ := idt_install hgate hkeys
  unfold enter
  rw [if_pos ⟨hpresent, hist⟩, if_pos hoffset]

include hne htimer in
theorem enter_pit : enter b 0x20 = .pitTick := by
  have hgate : (0x20, b.handlers.pitIntHandler) ∈ b.handlers.gates := by
    simp [Handlers.gates]
  obtain ⟨hpresent, hist, hoffset⟩ := idt_install hgate htimer
  have hother : ¬ (b.idt 0x20).getOffset = b.handlers.keyboardIntHandler := by
    rw [hoffset]
    exact hne.symm
  unfold enter
  rw [if_pos ⟨hpresent, hist⟩, if_neg hother, if_pos hoffset]

end Gates

/-! ## The controllers behind `sti` -/

/-- **The controllers behind `sti`**, with these lines of the first one in service: the second one
has a low output. -/
structure Serving (p : Pair) (lines : Finset (Fin 8)) : Prop where
  registers : configs p = (PIC.master 0b11111000, PIC.slave 0b11101111)
  settled : p.Settled
  isr : p.master.isr = lines
  cascade : 2 ∉ p.master.irr
  unmasked : 4 ∉ p.slave.irr
  idle : p.slave.isr = ∅

namespace Serving

variable {p : Pair} {lines : Finset (Fin 8)} {n : Fin 8}

theorem master (h : Serving p lines) : p.master.config = PIC.master 0b11111000 :=
  congrArg Prod.fst h.registers

theorem slave (h : Serving p lines) : p.slave.config = PIC.slave 0b11101111 :=
  congrArg Prod.snd h.registers

/-- The second controller masks all lines but one. -/
theorem slave_masked : ∀ n : Fin 8, n ≠ 4 → (PIC.slave 0b11101111).imr.getLsbD n = true := by
  decide

/-- The output of the second controller is low without a request on that one. -/
theorem slave_low {c : Chip} (hconfig : c.config = PIC.slave 0b11101111) (hirr : 4 ∉ c.irr) :
    c.output = false := by
  refine Chip.output_eq_false fun n => ?_
  by_cases hn : n = 4
  · subst hn
    exact Chip.not_offers_of_irr hirr
  · refine Chip.not_offers_of_masked ?_
    rw [hconfig]
    exact slave_masked n hn

/-- **At `sti`** nothing is in service. -/
theorem of_started (h : Started .done p)
    (hregisters : configs p = (PIC.master 0b11111000, PIC.slave 0b11101111)) : Serving p ∅ := by
  obtain ⟨hisr, hirr⟩ := h.master id
  obtain ⟨hslave, hidle⟩ := h.slave id
  refine ⟨hregisters, h.settled, hisr, hirr, ?_, hidle⟩
  rw [hslave]
  exact Finset.notMem_empty 4

/-- An edge on a line of the first controller. -/
theorem raise_master (h : Serving p lines) (hn : n ≠ 2) : Serving (p.raise (.master n)) lines ∧
    (p.raise (.master n)).master.irr = insert n p.master.irr := by
  have hmaster : (p.raise (.master n)).master = p.master.raise n := settle_master h.settled
  refine ⟨⟨(configs_raise _ _).trans h.registers, Pair.settled_settle _, ?_, ?_, h.unmasked,
    h.idle⟩, ?_⟩
  · rw [hmaster]
    exact h.isr
  · rw [hmaster]
    intro hmem
    rcases Finset.mem_insert.mp hmem with heq | hmem
    · exact hn heq.symm
    · exact h.cascade hmem
  · rw [hmaster]
    rfl

/-- An edge on a masked line of the second controller. -/
theorem raise_slave (h : Serving p lines) (hn : n ≠ 4) : Serving (p.raise (.slave n)) lines ∧
    (p.raise (.slave n)).master.irr = p.master.irr := by
  have hirr : 4 ∉ (p.slave.raise n).irr := by
    intro hmem
    rcases Finset.mem_insert.mp hmem with heq | hmem
    · exact hn heq.symm
    · exact h.unmasked hmem
  have hmaster : (p.raise (.slave n)).master = p.master :=
    Pair.settle_of_low (p := { p with slave := p.slave.raise n }) (slave_low h.slave hirr)
  refine ⟨⟨(configs_raise _ _).trans h.registers, Pair.settled_settle _, ?_, ?_, hirr,
    h.idle⟩, ?_⟩
  · rw [hmaster]
    exact h.isr
  · rw [hmaster]
    exact h.cascade
  · rw [hmaster]

/-- The first controller unmasks three lines. -/
theorem master_unmasked : ∀ n : Fin 8, (PIC.master 0b11111000).imr.getLsbD n = false →
    n = 0 ∨ n = 1 ∨ n = 2 := by
  decide

/-- The first controller offers lines 0 and 1. -/
theorem offers (h : Serving p ∅) (hn : p.master.Offers n) : n = 0 ∨ n = 1 := by
  obtain ⟨hirr, hmask, -⟩ := hn
  rw [h.master] at hmask
  rcases master_unmasked n hmask with h0 | h1 | rfl
  · exact Or.inl h0
  · exact Or.inr h1
  · exact absurd hirr h.cascade

/-- A request on one of these lines is offered. -/
theorem offers_of_irr (h : Serving p ∅) (hn : n = 0 ∨ n = 1) (hirr : n ∈ p.master.irr) :
    p.master.Offers n := by
  refine Chip.offers_of_isr_empty hirr ?_ h.isr
  rw [h.master]
  rcases hn with rfl | rfl <;> decide

/-- A line is in service once it is acknowledged. -/
theorem acknowledge (h : Serving p ∅) (n : Fin 8) :
    Serving (Pair.settle { p with master := p.master.acknowledge n }) {n} ∧
      (Pair.settle { p with master := p.master.acknowledge n }).master.irr =
        p.master.irr.erase n := by
  have hmaster : (Pair.settle { p with master := p.master.acknowledge n }).master =
      p.master.acknowledge n := settle_master h.settled
  refine ⟨⟨?_, Pair.settled_settle _, ?_, ?_, h.unmasked, h.idle⟩, ?_⟩
  · unfold configs
    rw [hmaster]
    exact h.registers
  · rw [hmaster]
    unfold Chip.acknowledge
    rw [h.master, h.isr]
    rfl
  · rw [hmaster]
    exact fun hmem => h.cascade (Finset.mem_of_mem_erase hmem)
  · rw [hmaster]
    rfl

/-- **The interrupts that are delivered** are those of the timer, and those of the keyboard when
the timer has none. -/
theorem acks {v : BitVec 8} {p' : Pair} (h : Serving p ∅) (hacks : p.Acks v p') :
    v = 0x20 ∧ 0 ∈ p.master.irr ∧ Serving p' {0} ∧ p'.master.irr = p.master.irr.erase 0 ∨
      v = 0x21 ∧ 0 ∉ p.master.irr ∧ 1 ∈ p.master.irr ∧ Serving p' {1} ∧
        p'.master.irr = p.master.irr.erase 1 := by
  cases hacks with
  | direct n hn hline =>
      have hvector : p.master.vector n = 0x20 ||| BitVec.ofNat 8 n.val := by
        unfold Chip.vector
        rw [h.master]
        rfl
      rw [hvector]
      rcases h.offers hn.1 with rfl | rfl
      · obtain ⟨hserving, hirr⟩ := h.acknowledge 0
        exact Or.inl ⟨rfl, hn.1.1, hserving, hirr⟩
      · obtain ⟨hserving, hirr⟩ := h.acknowledge 1
        refine Or.inr ⟨rfl, fun hmem => ?_, hn.1.1, hserving, hirr⟩
        exact absurd (hn.2 0 (h.offers_of_irr (Or.inl rfl) hmem)) (by decide)
  | cascaded n k hn hline hk =>
      rw [h.master] at hline
      rcases h.offers hn.1 with rfl | rfl <;> exact absurd hline (by decide)
  | spurious n hn hline hk =>
      rw [h.master] at hline
      rcases h.offers hn.1 with rfl | rfl <;> exact absurd hline (by decide)

/-- **A request of the timer or the keyboard is delivered.** -/
theorem exists_acks (h : Serving p ∅) (hn : n = 0 ∨ n = 1) (hirr : n ∈ p.master.irr) :
    ∃ v p', p.Acks v p' := by
  obtain ⟨k, hk⟩ := Chip.exists_next (h.offers_of_irr hn hirr)
  refine ⟨_, _, Pair.Acks.direct p k hk ?_⟩
  rw [h.master]
  rcases h.offers hk.1 with rfl | rfl <;> decide

/-- **`pic_end_master`** ends the interrupt in service. -/
theorem picEndMaster (h : Serving p {n}) : Serving (PIC.picEndMaster p) ∅ ∧
    (PIC.picEndMaster p).master.irr = p.master.irr := by
  have hmaster : (PIC.picEndMaster p).master = { p.master with isr := ∅ } := by
    refine (settle_master h.settled).trans ?_
    exact Chip.writeCommand_end h.isr
  have hregisters : configs (PIC.picEndMaster p) = configs p := by
    unfold configs
    rw [hmaster]
    rfl
  refine ⟨⟨hregisters.trans h.registers, Pair.settled_settle _, ?_, ?_, h.unmasked, h.idle⟩, ?_⟩
  · rw [hmaster]
  · rw [hmaster]
    exact h.cascade
  · rw [hmaster]

/-- **The unmasked line of the second controller** is delivered when the timer and the keyboard
have no request, with the vector 0x2c. -/
theorem acks_slave (h : Serving p ∅) (h0 : 0 ∉ p.master.irr) (h1 : 1 ∉ p.master.irr) :
    (∃ p', (p.raise (.slave 4)).Acks 0x2c p') ∧
      ∀ v p', (p.raise (.slave 4)).Acks v p' → v = 0x2c := by
  have hslave : (p.raise (.slave 4)).slave = p.slave.raise 4 := rfl
  have hslaveConfig : (p.raise (.slave 4)).slave.config = PIC.slave 0b11101111 := h.slave
  -- the second controller offers the line and no other one
  have hoffers : (p.raise (.slave 4)).slave.Offers 4 := by
    refine Chip.offers_of_isr_empty (Finset.mem_insert_self 4 _) ?_ h.idle
    rw [hslaveConfig]
    decide
  have honly : ∀ k, (p.raise (.slave 4)).slave.Offers k → k = 4 := by
    intro k hk
    by_contra hne
    refine Chip.not_offers_of_masked ?_ hk
    rw [hslaveConfig]
    exact slave_masked k hne
  have hslaveNext : ∀ k, (p.raise (.slave 4)).slave.Next k ↔ k = 4 := by
    refine fun k => ⟨fun hk => honly k hk.1, ?_⟩
    rintro rfl
    exact ⟨hoffers, fun m hm => (honly m hm).ge⟩
  -- its edge reaches the first one, which offers line 2 and no other one
  have hmaster : (p.raise (.slave 4)).master = p.master.raise 2 := by
    have hhigh : (p.slave.raise 4).output = true := decide_eq_true ⟨4, hslave ▸ hoffers⟩
    have hlow : p.line = false := h.settled.trans (slave_low h.slave h.unmasked)
    unfold Pair.raise Pair.settle
    dsimp only
    rw [hhigh, hlow]
    rfl
  have hmasterConfig : (p.raise (.slave 4)).master.config = PIC.master 0b11111000 := by
    rw [hmaster]
    exact h.master
  have hmasterOffers : ∀ n, (p.raise (.slave 4)).master.Offers n ↔ n = 2 := by
    intro n
    constructor
    · rintro ⟨hirr, hmask, -⟩
      rw [hmasterConfig] at hmask
      rw [hmaster] at hirr
      rcases master_unmasked n hmask with rfl | rfl | rfl
      · exact absurd (Finset.mem_of_mem_insert_of_ne hirr (by decide)) h0
      · exact absurd (Finset.mem_of_mem_insert_of_ne hirr (by decide)) h1
      · rfl
    · rintro rfl
      refine Chip.offers_of_isr_empty ?_ ?_ ?_
      · rw [hmaster]
        exact Finset.mem_insert_self 2 _
      · rw [hmasterConfig]
        decide
      · rw [hmaster]
        exact h.isr
  have hmasterNext : ∀ n, (p.raise (.slave 4)).master.Next n ↔ n = 2 := by
    refine fun n => ⟨fun hn => (hmasterOffers n).mp hn.1, ?_⟩
    rintro rfl
    exact ⟨(hmasterOffers 2).mpr rfl, fun m hm => ((hmasterOffers m).mp hm).ge⟩
  have hline : (p.raise (.slave 4)).master.config.cascade.getLsbD (2 : Fin 8) = true := by
    rw [hmasterConfig]
    decide
  have hvector : (p.raise (.slave 4)).slave.vector 4 = 0x2c := by
    unfold Chip.vector
    rw [hslaveConfig]
    rfl
  constructor
  · rw [← hvector]
    exact ⟨_, Pair.Acks.cascaded _ 2 4 ((hmasterNext 2).mpr rfl) hline ((hslaveNext 4).mpr rfl)⟩
  · intro v p' hacks
    cases hacks with
    | direct n hn hdirect =>
        obtain rfl := (hmasterNext n).mp hn
        exact absurd (hline.symm.trans hdirect) (by decide)
    | cascaded n k hn _ hk =>
        obtain rfl := (hslaveNext k).mp hk
        exact hvector
    | spurious n hn _ hk => exact absurd hoffers (hk 4)

end Serving

end EtaOs
