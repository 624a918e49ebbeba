import EtaOs.Interrupts.System
import EtaOs.Library.Simulation

/-!
# What the interrupts keep

The request of the keyboard follows its data register: it is there as long as the register is
full and the handler has not come to read it.  The reset of the first controller breaks this,
because it forgets the edges that the controller has seen; with the register full at that moment
the request never comes back.  Both cases are carried through every step of the system, together
with the way that each scancode has come.

The invariant has one clause for each place where the information about a key can be: the register,
the request line, the part of the handler that has read the register, and the keys already
handled.  A step moves it from one to the next, and no step may lose it or make two of it.

* `DeliveryStep`: the steps without harmful requests; `FullAtReset`, the state of the register.
* `KeyLine`: the request of the keyboard and its register.
* `DeliveryInv`: the invariant, with the register empty or full at the reset.
* `DeliveryInv.step`, `DeliveryInv.of_run`: every step keeps it, and so does every run.
-/

namespace EtaOs

open Pic8259 PIC Simulation

/-! ## Statement -/

/-- A request does no harm: on the lines of the second controller it comes behind `sti`, and not
on the one that `init_kernel` unmasks. -/
def Harmless (s : System) : Event → Prop
  | .request (.slave n) => s.Booted ∧ n ≠ 4
  | _ => True

/-- When the first controller is reset, the data register is full or not. -/
def FullAtReset (full : Bool) (s : System) : Event → Prop
  | .cpu => ∀ value rest, s.cpu = .boot (.out PIC1_CMD value rest) → Starts value → s.full = full
  | _ => True

/-- A step without harmful requests. -/
def DeliveryStep (b : Board) (full : Bool) (s : System) (e : Event) (s' : System) : Prop :=
  Step b s e s' ∧ Harmless s e ∧ FullAtReset full s e

/-- The system at the first access of `remap_pic`, whatever the firmware has left. -/
structure AtRemap (s : System) : Prop where
  cpu : s.cpu = .boot bootPorts
  settled : s.pics.Settled
  ticks : s.ticks = 0
  handled : s.handled = []
  pressed : s.pressed = s.buffered ++ s.queue

/-! ## The invariant -/

/-- The handler is about to read the register. -/
def Cpu.reading : Cpu → Prop
  | .keyboardInb => True
  | _ => False

/-- The lines in service. -/
def Cpu.lines : Cpu → Finset (Fin 8)
  | .keyboardInb | .keyboardHandle _ | .keyboardEnd => {1}
  | .pitTick | .pitEnd => {0}
  | _ => ∅

/-- **The request of the keyboard follows its register**, until the handler is about to read it.
But if it was full at the reset, it stays full, and its request is forgotten. -/
def KeyLine (full : Bool) (irr : Finset (Fin 8)) (s : System) : Prop :=
  if full then s.full = true ∧ 1 ∉ irr ∧ ¬ s.cpu.reading
  else (s.full = true ↔ 1 ∈ irr ∨ s.cpu.reading) ∧ ¬ (1 ∈ irr ∧ s.cpu.reading)

/-- The handler is about to count an edge of the timer. -/
def Cpu.counting : Cpu → ℕ
  | .pitTick => 1
  | _ => 0

/-- The edges of the timer that are still to be counted. -/
def System.due (s : System) : ℕ := (if 0 ∈ s.pics.master.irr then 1 else 0) + s.cpu.counting

/-- What holds before `sti`. -/
structure BootInv (full : Bool) (rest : PortProgram) (s : System) : Prop where
  tidy : rest.Tidy
  started : Started rest s.pics
  registers : rest.configs (configs s.pics) = (PIC.master 0b11111000, PIC.slave 0b11101111)
  ticks : s.ticks = 0
  lines : ¬ rest.Resets PIC1_CMD → KeyLine full s.pics.master.irr s ∧ s.due ≤ s.edges

/-- What holds behind `sti`. -/
structure RunInv (full : Bool) (s : System) : Prop where
  serving : Serving s.pics s.cpu.lines
  keys : KeyLine full s.pics.master.irr s
  ticked : s.ticks + s.due ≤ s.edges

/-- **The invariant.**  The scancodes pressed so far are those handled, the one in the hand of the
handler, the one in the register, and those in the keyboard, in this order. -/
structure DeliveryInv (b : Board) (k₀ : Keyboard) (full : Bool) (s : System) : Prop where
  boot : ∀ rest, s.cpu = .boot rest → BootInv full rest s
  running : s.Booted → RunInv full s
  onGates : ∀ v, s.cpu ≠ .lost v
  dead : full = true → s.handled = [] ∧ s.inHand = []
  once : s.pressed = s.handled ++ s.inHand ++ s.buffered ++ s.queue
  shown : s.keyboard = type b.next b.target (s.handled.map Typed.key) k₀

section Devices

variable {b : Board} {k₀ : Keyboard} {full : Bool} {s : System}

theorem System.boot_or_booted (s : System) : (∃ rest, s.cpu = .boot rest) ∨ s.Booted := by
  unfold System.Booted
  cases s.cpu with
  | boot rest => exact Or.inl ⟨rest, rfl⟩
  | _ => exact Or.inr fun _ h => Cpu.noConfusion h

/-- The chips have settled before `sti` and behind it. -/
theorem DeliveryInv.settled (h : DeliveryInv b k₀ full s) : s.pics.Settled := by
  rcases s.boot_or_booted with ⟨rest, hrest⟩ | hbooted
  · exact (h.boot rest hrest).started.settled
  · exact (h.running hbooted).serving.settled

/-- **A device of the first controller** raises its line: what is left to show is what becomes of
the requests of the keyboard and the timer, and of the scancodes. -/
theorem DeliveryInv.raise {s' : System} {n : Fin 8} (h : DeliveryInv b k₀ full s) (hn : n ≠ 2)
    (hpics : s'.pics = s.pics.raise (.master n)) (hcpu : s'.cpu = s.cpu)
    (hkeyboard : s'.keyboard = s.keyboard) (hticks : s'.ticks = s.ticks)
    (hhandled : s'.handled = s.handled)
    (hkeys : KeyLine full s.pics.master.irr s → KeyLine full (insert n s.pics.master.irr) s')
    (hdue : s'.due + s.edges ≤ s.due + s'.edges)
    (hinHand : s'.inHand = s.inHand)
    (honce : s'.pressed = s.handled ++ s.inHand ++ s'.buffered ++ s'.queue) :
    DeliveryInv b k₀ full s' := by
  have hirr := irr_raise_master (n := n) h.settled
  rw [← hpics] at hirr
  refine ⟨fun rest hrest => ?_, fun hbooted => ?_, ?_, ?_, ?_, ?_⟩
  · rw [hcpu] at hrest
    obtain ⟨htidy, hstarted, hregisters, hzero, hlines⟩ := h.boot rest hrest
    refine ⟨htidy, ?_, ?_, hticks.trans hzero, fun hreset => ?_⟩
    · rw [hpics]
      exact hstarted.raise hn
    · rw [hpics, configs_raise]
      exact hregisters
    · obtain ⟨hline, hle⟩ := hlines hreset
      rw [hirr]
      exact ⟨hkeys hline, by omega⟩
  · unfold System.Booted at hbooted
    rw [hcpu] at hbooted
    obtain ⟨hserving, hline, hle⟩ := h.running hbooted
    refine ⟨?_, ?_, by omega⟩
    · rw [hcpu, hpics]
      exact (hserving.raise_master hn).1
    · rw [hirr]
      exact hkeys hline
  · rw [hcpu]
    exact h.onGates
  · rw [hhandled, hinHand]
    exact h.dead
  · rw [hhandled, hinHand]
    exact honce
  · rw [hkeyboard, hhandled]
    exact h.shown

/-- **A key is pressed.** -/
theorem DeliveryInv.press (h : DeliveryInv b k₀ full s) (c : BitVec 8) :
    DeliveryInv b k₀ full { s with queue := s.queue ++ [c], pressed := s.pressed ++ [c] } where
  boot := fun rest hrest =>
    let hboot := h.boot rest hrest
    ⟨hboot.tidy, hboot.started, hboot.registers, hboot.ticks, hboot.lines⟩
  running := fun hbooted =>
    let hrun := h.running hbooted
    ⟨hrun.serving, hrun.keys, hrun.ticked⟩
  onGates := h.onGates
  dead := h.dead
  once := by
    show s.pressed ++ [c] = s.handled ++ s.inHand ++ s.buffered ++ (s.queue ++ [c])
    rw [h.once]
    simp only [List.append_assoc]
  shown := h.shown

/-- **The controller of the keyboard takes the next key.** -/
theorem DeliveryInv.transfer {c : BitVec 8} {q : List (BitVec 8)} (h : DeliveryInv b k₀ full s)
    (hq : s.queue = c :: q) (hfull : s.full = false) :
    DeliveryInv b k₀ full
      { s with data := c, full := true, queue := q, pics := s.pics.raise (.master 1) } := by
  refine h.raise (n := 1) (by decide) rfl rfl rfl rfl rfl (fun hline => ?_) ?_ rfl ?_
  · cases full with
    | true => exact absurd (hfull.symm.trans hline.1) (by decide)
    | false =>
        -- with the register empty the handler is not about to read it
        have hread : ¬ s.cpu.reading := fun hread =>
          absurd (hfull.symm.trans (hline.1.mpr (Or.inr hread))) (by decide)
        exact ⟨⟨fun _ => Or.inl (Finset.mem_insert_self 1 _), fun _ => rfl⟩,
          fun hboth => hread hboth.2⟩
  · unfold System.due
    dsimp only
    rw [irr_raise_master h.settled]
    simp
  · rw [h.once, hq]
    unfold System.buffered
    rw [hfull]
    simp

/-- **An edge of the timer.** -/
theorem DeliveryInv.timer (h : DeliveryInv b k₀ full s) :
    DeliveryInv b k₀ full { s with edges := s.edges + 1, pics := s.pics.raise (.master 0) } := by
  refine h.raise (n := 0) (by decide) rfl rfl rfl rfl rfl (fun hline => ?_) ?_ rfl h.once
  · unfold KeyLine at hline ⊢
    simpa using hline
  · unfold System.due
    dsimp only
    rw [irr_raise_master h.settled, if_pos (Finset.mem_insert_self 0 _)]
    omega

/-- **An edge of another device.** -/
theorem DeliveryInv.request {l : Line} (h : DeliveryInv b k₀ full s)
    (hl : ∀ n, l = .master n → 2 < n) (hharmless : Harmless s (.request l)) :
    DeliveryInv b k₀ full { s with pics := s.pics.raise l } := by
  cases l with
  | master n =>
      have hn : 2 < n := hl n rfl
      have hne0 : (0 : Fin 8) ≠ n := by omega
      have hne1 : (1 : Fin 8) ≠ n := by omega
      refine h.raise (n := n) (by omega) rfl rfl rfl rfl rfl (fun hline => ?_) ?_ rfl h.once
      · unfold KeyLine at hline ⊢
        simpa [hne1] using hline
      · unfold System.due
        dsimp only
        rw [irr_raise_master h.settled]
        simp [hne0]
  | slave n =>
      obtain ⟨hbooted, hne⟩ := hharmless
      obtain ⟨hserving, hline, hle⟩ := h.running hbooted
      obtain ⟨hserving', hirr⟩ := hserving.raise_slave hne
      refine ⟨fun rest hrest => absurd hrest (hbooted rest), fun _ => ⟨hserving', ?_, ?_⟩,
        h.onGates, h.dead, h.once, h.shown⟩
      · rw [hirr]
        exact hline
      · unfold System.due
        rw [hirr]
        exact hle

end Devices

section Processor

variable {b : Board} {k₀ : Keyboard} {full : Bool} {s s' : System}

/-- Away from the reading of the register its request does not depend on the processor. -/
theorem KeyLine.of_not_reading {irr irr' : Finset (Fin 8)} (h : KeyLine full irr s)
    (hread : ¬ s.cpu.reading) (hread' : ¬ s'.cpu.reading) (hfull : s'.full = s.full)
    (hirr : 1 ∈ irr' ↔ 1 ∈ irr) : KeyLine full irr' s' := by
  unfold KeyLine at h ⊢
  rw [hfull, hirr]
  simp only [hread, hread'] at h ⊢
  exact h

/-- **A port is written** before `sti`. -/
theorem DeliveryInv.out {port : BitVec 16} {value : BitVec 8} {rest : PortProgram}
    (h : DeliveryInv b k₀ full s) (hcpu : s.cpu = .boot (.out port value rest))
    (hfull : FullAtReset full s .cpu) :
    DeliveryInv b k₀ full { s with cpu := .boot rest, pics := outb port value s.pics } := by
  obtain ⟨htidy, hstarted, hregisters, hzero, hlines⟩ := h.boot _ hcpu
  have hhand : s.inHand = [] := congrArg Cpu.hand hcpu
  refine ⟨fun rest' hrest => ?_, fun hbooted => absurd rfl (hbooted rest), fun _ => Cpu.noConfusion,
    fun hdead => ⟨(h.dead hdead).1, rfl⟩, ?_, h.shown⟩
  · obtain rfl := Cpu.boot.inj hrest
    refine ⟨htidy.2.2, hstarted.out htidy, ?_, hzero, fun hreset => ?_⟩
    · rw [configs_outb]
      exact hregisters
    · by_cases hnow : port = PIC1_CMD ∧ Starts value
      · -- the reset forgets the edges
        have hirr : (outb port value s.pics).master.irr = ∅ := by
          rw [hnow.1, outb, if_pos rfl, settle_master hstarted.settled,
            Chip.writeCommand_starts hnow.2]
        have hregister := hfull value rest (hnow.1 ▸ hcpu) hnow.2
        unfold System.due
        dsimp only
        rw [hirr]
        refine ⟨?_, by simp [Cpu.counting]⟩
        unfold KeyLine
        cases full with
        | true => exact ⟨hregister, Finset.notMem_empty 1, id⟩
        | false => simp [hregister, Cpu.reading]
      · obtain ⟨hline, hle⟩ := hlines fun hall => hall.elim hnow hreset
        have hreading : ¬ s.cpu.reading := by
          rw [hcpu]
          exact id
        refine ⟨hline.of_not_reading hreading id rfl (mem_irr_outb (by decide) hnow), ?_⟩
        unfold System.due at hle ⊢
        dsimp only
        simp only [mem_irr_outb (n := 0) (by decide) hnow]
        rw [hcpu] at hle
        exact hle
  · rw [h.once, hhand]
    rfl

/-- **A port is read** before `sti`. -/
theorem DeliveryInv.inp {port : BitVec 16} {rest : BitVec 8 → PortProgram}
    (h : DeliveryInv b k₀ full s) (hcpu : s.cpu = .boot (.inp port rest)) :
    DeliveryInv b k₀ full { s with cpu := .boot (rest (inb port (configs s.pics))) } := by
  obtain ⟨htidy, hstarted, hregisters, hzero, hlines⟩ := h.boot _ hcpu
  have hhand : s.inHand = [] := congrArg Cpu.hand hcpu
  refine ⟨fun rest' hrest => ?_, fun hbooted => absurd rfl (hbooted _), fun _ => Cpu.noConfusion,
    fun hdead => ⟨(h.dead hdead).1, rfl⟩, ?_, h.shown⟩
  · obtain rfl := Cpu.boot.inj hrest
    refine ⟨htidy _, hstarted.inp _, hregisters, hzero, fun hreset => ?_⟩
    obtain ⟨hline, hle⟩ := hlines fun hall => hreset (hall _)
    have hreading : ¬ s.cpu.reading := by
      rw [hcpu]
      exact id
    refine ⟨hline.of_not_reading hreading id rfl Iff.rfl, ?_⟩
    unfold System.due at hle ⊢
    rw [hcpu] at hle
    exact hle
  · rw [h.once, hhand]
    rfl

/-- Behind `sti` the boot is over. -/
theorem DeliveryInv.of_running (hrun : RunInv full s') (hbooted : s'.Booted)
    (hgates : ∀ v, s'.cpu ≠ .lost v) (hdead : full = true → s'.handled = [] ∧ s'.inHand = [])
    (honce : s'.pressed = s'.handled ++ s'.inHand ++ s'.buffered ++ s'.queue)
    (hshown : s'.keyboard = type b.next b.target (s'.handled.map Typed.key) k₀) :
    DeliveryInv b k₀ full s' :=
  ⟨fun rest hrest => absurd hrest (hbooted rest), fun _ => hrun, hgates, hdead, honce, hshown⟩

/-- **The processor goes on** to a statement that has nothing to do with keys. -/
theorem DeliveryInv.goto {cpu : Cpu} {pics : Pair} {ticks : ℕ} (h : DeliveryInv b k₀ full s)
    (hline : KeyLine full s.pics.master.irr s) (hread : ¬ s.cpu.reading) (hhand : s.cpu.hand = [])
    (hread' : ¬ cpu.reading) (hhand' : cpu.hand = []) (hbooted : ∀ rest, cpu ≠ .boot rest)
    (hgates : ∀ v, cpu ≠ .lost v) (hserving : Serving pics cpu.lines)
    (hirr : 1 ∈ pics.master.irr ↔ 1 ∈ s.pics.master.irr)
    (hticked : ticks + ((if 0 ∈ pics.master.irr then 1 else 0) + cpu.counting) ≤ s.edges) :
    DeliveryInv b k₀ full { s with cpu := cpu, pics := pics, ticks := ticks } := by
  refine DeliveryInv.of_running ⟨hserving, hline.of_not_reading hread hread' rfl hirr, hticked⟩
    hbooted hgates (fun hdead => ⟨(h.dead hdead).1, hhand'⟩) ?_ h.shown
  have hhands : s.inHand = cpu.hand := hhand.trans hhand'.symm
  rw [h.once, hhands]
  rfl

/-- **Interrupts are enabled.** -/
theorem DeliveryInv.sti (h : DeliveryInv b k₀ full s) (hcpu : s.cpu = .boot .done) :
    DeliveryInv b k₀ full { s with cpu := .kernel } := by
  obtain ⟨-, hstarted, hregisters, hzero, hlines⟩ := h.boot _ hcpu
  obtain ⟨hline, hle⟩ := hlines id
  unfold System.due at hle
  rw [hcpu] at hle
  refine h.goto hline ?_ ?_ id rfl (fun _ => Cpu.noConfusion)
    (fun _ => Cpu.noConfusion) (Serving.of_started hstarted hregisters) Iff.rfl ?_
  · rw [hcpu]
    exact id
  · rw [hcpu]
    rfl
  · rw [hzero, Nat.zero_add]
    exact hle

/-- The processor is at a statement behind `sti`. -/
theorem DeliveryInv.run (h : DeliveryInv b k₀ full s) {cpu : Cpu} (hcpu : s.cpu = cpu)
    (hbooted : ∀ rest, cpu ≠ .boot rest) : Serving s.pics cpu.lines ∧
      KeyLine full s.pics.master.irr s ∧
        s.ticks + ((if 0 ∈ s.pics.master.irr then 1 else 0) + cpu.counting) ≤ s.edges := by
  subst hcpu
  exact ⟨(h.running hbooted).serving, (h.running hbooted).keys, (h.running hbooted).ticked⟩

section Gates

variable (hne : b.handlers.keyboardIntHandler ≠ b.handlers.pitIntHandler)
  (htimer : (frameTable b.kernel 0x20).ist = 0) (hkeys : (frameTable b.kernel 0x21).ist = 0)

include hne htimer hkeys

/-- **An interrupt is taken**, to the handler of its device. -/
theorem DeliveryInv.accept {v : BitVec 8} {p : Pair} (h : DeliveryInv b k₀ full s)
    (hcpu : s.cpu = .kernel) (hacks : s.pics.Acks v p) :
    DeliveryInv b k₀ full { s with cpu := enter b v, pics := p } := by
  obtain ⟨hserving, hline, hle⟩ := h.run hcpu fun _ => Cpu.noConfusion
  have hread : ¬ s.cpu.reading := by
    rw [hcpu]
    exact id
  have hhand : s.cpu.hand = [] := congrArg Cpu.hand hcpu
  rcases hserving.acks hacks with ⟨rfl, hmem, hserving', hirr⟩ | ⟨rfl, -, hmem, hserving', hirr⟩
  · rw [enter_pit hne htimer]
    refine h.goto hline hread hhand id rfl (fun _ => Cpu.noConfusion)
      (fun _ => Cpu.noConfusion) hserving' ?_ ?_
    · rw [hirr]
      simp
    · rw [if_pos hmem] at hle
      rw [hirr]
      simpa [Cpu.counting] using hle
  · rw [enter_keyboard hkeys]
    cases full with
    | true => exact absurd hmem hline.2.1
    | false =>
        have hfull : s.full = true := hline.1.mpr (Or.inl hmem)
        refine DeliveryInv.of_running ⟨hserving', ?_, ?_⟩ (fun _ => Cpu.noConfusion)
          (fun _ => Cpu.noConfusion) (fun hdead => ⟨(h.dead hdead).1, rfl⟩) ?_ h.shown
        · dsimp only
          rw [hirr]
          simp [KeyLine, Cpu.reading, hfull]
        · unfold System.due
          dsimp only
          rw [hirr]
          simpa [Cpu.counting] using hle
        · have hhands : s.inHand = [] := hhand
          rw [h.once, hhands]
          rfl

end Gates

/-- **The handler reads the register**, which frees it. -/
theorem DeliveryInv.keyboardInb (h : DeliveryInv b k₀ full s) (hcpu : s.cpu = .keyboardInb) :
    DeliveryInv b k₀ full { s with cpu := .keyboardHandle s.data, full := false } := by
  obtain ⟨hserving, hline, hle⟩ := h.run hcpu fun _ => Cpu.noConfusion
  have hread : s.cpu.reading := by
    rw [hcpu]
    exact trivial
  have hhand : s.inHand = [] := congrArg Cpu.hand hcpu
  cases full with
  | true => exact absurd hread hline.2.2
  | false =>
      obtain ⟨hiff, hboth⟩ := hline
      have hfull : s.full = true := hiff.mpr (Or.inr hread)
      have hirr : 1 ∉ s.pics.master.irr := fun hmem => hboth ⟨hmem, hread⟩
      refine DeliveryInv.of_running ⟨hserving, ?_, hle⟩ (fun _ => Cpu.noConfusion)
        (fun _ => Cpu.noConfusion) (fun hdead => absurd hdead (by decide)) ?_ h.shown
      · simp [KeyLine, Cpu.reading, hirr]
      · rw [h.once, hhand]
        unfold System.buffered System.inHand
        rw [hfull]
        simp [Cpu.hand]

/-- **`handle_keyboard` is called.** -/
theorem DeliveryInv.keyboardHandle {c : BitVec 8} (h : DeliveryInv b k₀ full s)
    (hcpu : s.cpu = .keyboardHandle c) :
    DeliveryInv b k₀ full
      { s with
        cpu := .keyboardEnd
        keyboard := handleKeyboard b.next b.target c s.keyboard
        handled := s.handled ++ [c] } := by
  obtain ⟨hserving, hline, hle⟩ := h.run hcpu fun _ => Cpu.noConfusion
  have hread : ¬ s.cpu.reading := by
    rw [hcpu]
    exact id
  have hhand : s.inHand = [c] := congrArg Cpu.hand hcpu
  refine DeliveryInv.of_running ⟨hserving, hline.of_not_reading hread id rfl Iff.rfl, hle⟩
    (fun _ => Cpu.noConfusion) (fun _ => Cpu.noConfusion) (fun hdead => ?_) ?_ ?_
  · obtain ⟨-, hnone⟩ := h.dead hdead
    rw [hhand] at hnone
    exact absurd hnone (by simp)
  · rw [h.once, hhand]
    unfold System.inHand System.buffered
    simp [Cpu.hand]
  · rw [h.shown, List.map_append]
    unfold type
    rw [List.foldl_append]
    rfl

/-- **`PIT::tick` is called.** -/
theorem DeliveryInv.pitTick (h : DeliveryInv b k₀ full s) (hcpu : s.cpu = .pitTick) :
    DeliveryInv b k₀ full { s with cpu := .pitEnd, ticks := s.ticks + 1 } := by
  obtain ⟨hserving, hline, hle⟩ := h.run hcpu fun _ => Cpu.noConfusion
  refine h.goto hline ?_ (congrArg Cpu.hand hcpu) id rfl
    (fun _ => Cpu.noConfusion) (fun _ => Cpu.noConfusion) hserving Iff.rfl ?_
  · rw [hcpu]
    exact id
  · simp only [Cpu.counting] at hle ⊢
    omega

/-- **The interrupt is ended**, by the handler of its device. -/
theorem DeliveryInv.picEnd {cpu : Cpu} {n : Fin 8} (h : DeliveryInv b k₀ full s)
    (hcpu : s.cpu = cpu) (hbooted : ∀ rest, cpu ≠ .boot rest) (hlines : cpu.lines = {n})
    (hread : ¬ cpu.reading) (hhand : cpu.hand = []) :
    DeliveryInv b k₀ full { s with cpu := .iret, pics := picEndMaster s.pics } := by
  obtain ⟨hserving, hline, hle⟩ := h.run hcpu hbooted
  rw [hlines] at hserving
  obtain ⟨hserving', hirr⟩ := hserving.picEndMaster
  subst hcpu
  refine h.goto hline hread hhand id rfl (fun _ => Cpu.noConfusion)
    (fun _ => Cpu.noConfusion) hserving' (by rw [hirr]) ?_
  rw [hirr]
  simp only [Cpu.counting]
  omega

/-- **The handler returns.** -/
theorem DeliveryInv.iret (h : DeliveryInv b k₀ full s) (hcpu : s.cpu = .iret) :
    DeliveryInv b k₀ full { s with cpu := .kernel } := by
  obtain ⟨hserving, hline, hle⟩ := h.run hcpu fun _ => Cpu.noConfusion
  refine h.goto hline ?_ (congrArg Cpu.hand hcpu) id rfl
    (fun _ => Cpu.noConfusion) (fun _ => Cpu.noConfusion) hserving Iff.rfl hle
  rw [hcpu]
  exact id

end Processor

/-! ## Runs -/

section Runs

variable {b : Board} {k₀ : Keyboard} {full : Bool} {s s' u : System} {e : Event}
  {events : List Event}

/-- **The invariant holds at the start**, whatever the firmware has left. -/
theorem DeliveryInv.start (h : AtRemap s) : DeliveryInv b s.keyboard full s := by
  have hhand : s.inHand = [] := congrArg Cpu.hand h.cpu
  refine ⟨fun rest hrest => ?_, fun hbooted => absurd h.cpu (hbooted _), fun v hv => ?_,
    fun _ => ⟨h.handled, hhand⟩, ?_, ?_⟩
  · obtain rfl := Cpu.boot.inj (h.cpu.symm.trans hrest)
    exact ⟨bootPorts_tidy, ⟨h.settled, fun hreset => absurd bootPorts_resets.1 hreset,
      fun hreset => absurd bootPorts_resets.2 hreset⟩, bootPorts_configs _, h.ticks,
      fun hreset => absurd bootPorts_resets.1 hreset⟩
  · exact Cpu.noConfusion (h.cpu.symm.trans hv)
  · rw [h.handled, hhand]
    exact h.pressed
  · rw [h.handled]
    rfl

variable (hne : b.handlers.keyboardIntHandler ≠ b.handlers.pitIntHandler)
  (htimer : (frameTable b.kernel 0x20).ist = 0) (hkeys : (frameTable b.kernel 0x21).ist = 0)

include hne htimer hkeys

/-- **Step.** -/
theorem DeliveryInv.step (h : DeliveryInv b k₀ full s) (hstep : DeliveryStep b full s e s') :
    DeliveryInv b k₀ full s' := by
  obtain ⟨hstep, hharmless, hfull⟩ := hstep
  cases hstep with
  | press c => exact h.press c
  | transfer c q hq hempty => exact h.transfer hq hempty
  | timer => exact h.timer
  | request l hl => exact h.request hl hharmless
  | out port value rest hcpu => exact h.out hcpu hfull
  | inp port rest hcpu => exact h.inp hcpu
  | sti hcpu => exact h.sti hcpu
  | accept v p hcpu hacks => exact h.accept hne htimer hkeys hcpu hacks
  | keyboardInb hcpu => exact h.keyboardInb hcpu
  | keyboardHandle c hcpu => exact h.keyboardHandle hcpu
  | keyboardEnd hcpu => exact h.picEnd (n := 1) hcpu (fun _ => Cpu.noConfusion) rfl id rfl
  | pitTick hcpu => exact h.pitTick hcpu
  | pitEnd hcpu => exact h.picEnd (n := 0) hcpu (fun _ => Cpu.noConfusion) rfl id rfl
  | iret hcpu => exact h.iret hcpu

/-- **Run.** -/
theorem DeliveryInv.of_run (h : AtRemap s) (hrun : Steps (DeliveryStep b full) s events u) :
    DeliveryInv b s.keyboard full u :=
  hrun.invariant (fun _ _ _ _ _ => trivial)
    (fun _ _ _ hs hstep _ => hs.step hne htimer hkeys hstep) trivial (DeliveryInv.start h)

end Runs

end EtaOs
