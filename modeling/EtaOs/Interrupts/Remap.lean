import EtaOs.Library.InterruptController

/-!
# The ports of the interrupt controllers

`remap_pic` resets both controllers, gives them the vectors from 0x20 and 0x28 on, and restores
the masks it has read; `init_kernel` replaces the masks.  The accesses come one by one, and
devices raise their lines between them, so the accesses are a program that is run step by step.

What the accesses do to the registers of the controllers does not depend on what the devices do in
between, and it is computed by running the program without them.  What happens to the lines does
depend on it, and is stated as what every state on the way keeps to.

* `outb`, `inb`: what an access does to the controllers.
* `PortProgram`, `remapPic`, `bootPorts`: the accesses from `remap_pic` to `sti`;
  `PortProgram.run`, a program that nothing interrupts.
* `PortProgram.configs`: the registers after a program; `remapPic_configs`, `bootPorts_configs`.
* `Started`: what the chips keep to during the program, whatever lines are raised.
-/

namespace EtaOs

open Pic8259

namespace PIC

def PIC1_CMD : BitVec 16 := 0x20

def PIC1_DATA : BitVec 16 := 0x21

def PIC2_CMD : BitVec 16 := 0xA0

def PIC2_DATA : BitVec 16 := 0xA1

def PIC_EOI : BitVec 8 := 0x20

def ICW1_INIT : BitVec 8 := 0x10

def ICW1_ICW4 : BitVec 8 := 0x01

def ICW4_8086 : BitVec 8 := 0x01

/-- `outb`, as the controllers see it. -/
def outb (port : BitVec 16) (value : BitVec 8) (p : Pair) : Pair :=
  if port = PIC1_CMD then Pair.settle { p with master := p.master.writeCommand value }
  else if port = PIC1_DATA then Pair.settle { p with master := p.master.writeData value }
  else if port = PIC2_CMD then Pair.settle { p with slave := p.slave.writeCommand value }
  else if port = PIC2_DATA then Pair.settle { p with slave := p.slave.writeData value }
  else p

/-- The registers of the two chips. -/
def configs (p : Pair) : Config × Config := (p.master.config, p.slave.config)

/-- What `inb` reads from the data ports: the masks.  Other ports are not read here. -/
def inb (port : BitVec 16) (c : Config × Config) : BitVec 8 :=
  if port = PIC1_DATA then c.1.imr else if port = PIC2_DATA then c.2.imr else 0xff

/-- `pic_end_master`. -/
def picEndMaster (p : Pair) : Pair := outb PIC1_CMD PIC_EOI p

/-- `pic_end_slave`. -/
def picEndSlave (p : Pair) : Pair := outb PIC1_CMD PIC_EOI (outb PIC2_CMD PIC_EOI p)

/-! ## Programs of port accesses -/

/-- Port accesses, one after the other. -/
inductive PortProgram
  | done
  | out (port : BitVec 16) (value : BitVec 8) (rest : PortProgram)
  | inp (port : BitVec 16) (rest : BitVec 8 → PortProgram)

/-- `io_wait`, a write to an unused port. -/
def ioWait (rest : PortProgram) : PortProgram := .out 0x80 0 rest

/-- `remap_pic`. -/
def remapPic (rest : PortProgram) : PortProgram :=
  .inp PIC1_DATA fun a1 =>
  ioWait <|
  .inp PIC2_DATA fun a2 =>
  ioWait <|
  .out PIC1_CMD (ICW1_INIT ||| ICW1_ICW4) <|
  ioWait <|
  .out PIC2_CMD (ICW1_INIT ||| ICW1_ICW4) <|
  ioWait <|
  .out PIC1_DATA 0x20 <|
  ioWait <|
  .out PIC2_DATA 0x28 <|
  ioWait <|
  .out PIC1_DATA 4 <|
  ioWait <|
  .out PIC2_DATA 2 <|
  ioWait <|
  .out PIC1_DATA ICW4_8086 <|
  ioWait <|
  .out PIC2_DATA ICW4_8086 <|
  ioWait <|
  .out PIC1_DATA a1 <|
  ioWait <|
  .out PIC2_DATA a2 rest

/-- The port accesses of the kernel up to `sti`: those of `prepare_interrupts`, and the masks of
`init_kernel`. -/
def bootPorts : PortProgram :=
  remapPic <| .out PIC1_DATA 0b11111000 <| .out PIC2_DATA 0b11101111 .done

/-- The controllers after a program that nothing interrupts. -/
def PortProgram.run : PortProgram → Pair → Pair
  | .done, p => p
  | .out port value rest, p => rest.run (outb port value p)
  | .inp port rest, p => (rest (inb port (configs p))).run p

/-! ## The registers -/

/-- What an access does to the registers. -/
def outConfigs (port : BitVec 16) (value : BitVec 8) (c : Config × Config) : Config × Config :=
  if port = PIC1_CMD then (c.1.command value, c.2)
  else if port = PIC1_DATA then (c.1.data value, c.2)
  else if port = PIC2_CMD then (c.1, c.2.command value)
  else if port = PIC2_DATA then (c.1, c.2.data value)
  else c

theorem configs_outb (port : BitVec 16) (value : BitVec 8) (p : Pair) :
    configs (outb port value p) = outConfigs port value (configs p) := by
  unfold outb outConfigs configs
  split
  · rw [Pair.settle_master_config, Chip.writeCommand_config, Pair.settle_slave]
  · split
    · rw [Pair.settle_master_config, Pair.settle_slave]
      rfl
    · split
      · rw [Pair.settle_master_config, Pair.settle_slave, Chip.writeCommand_config]
      · split
        · rw [Pair.settle_master_config, Pair.settle_slave]
          rfl
        · rfl

/-- An edge leaves the registers. -/
theorem configs_raise (l : Line) (p : Pair) : configs (p.raise l) = configs p := by
  unfold configs
  cases l <;> simp [Pair.raise]

/-- **The registers after a program**, which do not depend on the lines. -/
def PortProgram.configs : PortProgram → Config × Config → Config × Config
  | .done, c => c
  | .out port value rest, c => rest.configs (outConfigs port value c)
  | .inp port rest, c => (rest (inb port c)).configs c

/-- The first chip behind `remap_pic`. -/
def master (imr : BitVec 8) : Config := ⟨imr, 0x20, 4, 1, .ready, false, true⟩

/-- The second chip behind `remap_pic`. -/
def slave (imr : BitVec 8) : Config := ⟨imr, 0x28, 2, 1, .ready, false, true⟩

/-- **`remap_pic` gives the chips their vectors and keeps their masks**, whatever state of the
initialisation they were in. -/
theorem remapPic_configs (rest : PortProgram) (c : Config × Config) :
    (remapPic rest).configs c = rest.configs (master c.1.imr, slave c.2.imr) := rfl

theorem bootPorts_configs (c : Config × Config) :
    bootPorts.configs c = (master 0b11111000, slave 0b11101111) := rfl

/-! ## The lines -/

namespace PortProgram

/-- The program resets the chip with this command port, whatever it reads. -/
def Resets (cmd : BitVec 16) : PortProgram → Prop
  | .done => False
  | .out port value rest => port = cmd ∧ Starts value ∨ rest.Resets cmd
  | .inp _ rest => ∀ b, (rest b).Resets cmd

/-- The second chip is only reset, until it has been reset. -/
def Tidy : PortProgram → Prop
  | .done => True
  | .out port value rest => (port = PIC2_CMD → Starts value) ∧
      (port = PIC2_DATA → ¬ rest.Resets PIC2_CMD) ∧ rest.Tidy
  | .inp _ rest => ∀ b, (rest b).Tidy

end PortProgram

theorem bootPorts_tidy : bootPorts.Tidy := by
  simp [bootPorts, remapPic, ioWait, PortProgram.Tidy, PortProgram.Resets, Starts, PIC1_CMD,
    PIC1_DATA, PIC2_CMD, PIC2_DATA, ICW1_INIT, ICW1_ICW4]

/-- Both chips are reset. -/
theorem bootPorts_resets : bootPorts.Resets PIC1_CMD ∧ bootPorts.Resets PIC2_CMD := by
  simp [bootPorts, remapPic, ioWait, PortProgram.Resets, Starts, PIC1_CMD, PIC2_CMD, ICW1_INIT,
    ICW1_ICW4]

/-- **What the chips keep to** while a program is run: the first one, once it has been reset, has
nothing in service and no request from the second one, which has no request at all once it has
been reset. -/
structure Started (rest : PortProgram) (p : Pair) : Prop where
  settled : p.Settled
  master : ¬ rest.Resets PIC1_CMD → p.master.isr = ∅ ∧ 2 ∉ p.master.irr
  slave : ¬ rest.Resets PIC2_CMD → p.slave.irr = ∅ ∧ p.slave.isr = ∅

section Started

variable {rest : PortProgram} {p : Pair} {port : BitVec 16} {value : BitVec 8}

/-- Two chips whose first one was changed have settled, when they had before. -/
theorem settle_master {c : Chip} (h : p.Settled) :
    (Pair.settle { p with master := c }).master = c :=
  Pair.settle_of_same (p := { p with master := c }) h

/-- Of the requests of the first chip, an access that does not reset it changes at most that of
the second one. -/
theorem mem_irr_outb {n : Fin 8} (hn : n ≠ 2) (hreset : ¬ (port = PIC1_CMD ∧ Starts value)) :
    n ∈ (outb port value p).master.irr ↔ n ∈ p.master.irr := by
  unfold outb
  split
  next h1 =>
    rw [Pair.mem_settle_irr hn, Chip.writeCommand_irr fun hv => hreset ⟨h1, hv⟩]
  next =>
    split
    next => rw [Pair.mem_settle_irr hn, Chip.writeData_irr]
    next =>
      split
      next => rw [Pair.mem_settle_irr hn]
      next =>
        split
        next => rw [Pair.mem_settle_irr hn]
        next => exact Iff.rfl

/-- An edge on a line of the first chip is a request of it. -/
theorem irr_raise_master {n : Fin 8} (h : p.Settled) :
    (p.raise (.master n)).master.irr = insert n p.master.irr :=
  congrArg Chip.irr (settle_master h)

/-- **`pic_end_slave`** ends an interrupt of the second chip in both. -/
theorem picEndSlave_isr {n : Fin 8} (hmaster : p.master.isr = {2}) (hslave : p.slave.isr = {n}) :
    (picEndSlave p).master.isr = ∅ ∧ (picEndSlave p).slave.isr = ∅ := by
  have hfirst : outb PIC2_CMD PIC_EOI p =
      Pair.settle { p with slave := { p.slave with isr := ∅ } } := by
    rw [← Chip.writeCommand_end hslave]
    rfl
  have hisr : (outb PIC2_CMD PIC_EOI p).master.isr = {2} := by
    rw [hfirst, Pair.settle_master_isr]
    exact hmaster
  have hsecond : picEndSlave p = Pair.settle
      { outb PIC2_CMD PIC_EOI p with
        master := { (outb PIC2_CMD PIC_EOI p).master with isr := ∅ } } := by
    rw [← Chip.writeCommand_end hisr]
    rfl
  rw [hsecond, Pair.settle_master_isr, Pair.settle_slave, hfirst]
  exact ⟨rfl, rfl⟩

/-- **An edge on a line of the first chip** other than that of the second one. -/
theorem Started.raise {n : Fin 8} (h : Started rest p) (hn : n ≠ 2) :
    Started rest (p.raise (.master n)) := by
  refine ⟨Pair.settled_settle _, fun hreset => ?_, h.slave⟩
  obtain ⟨hisr, hirr⟩ := h.master hreset
  rw [Pair.raise, settle_master h.settled]
  refine ⟨hisr, fun hmem => ?_⟩
  rcases Finset.mem_insert.mp hmem with heq | hmem
  · exact hn heq.symm
  · exact hirr hmem

/-- A port is read. -/
theorem Started.inp {rest : BitVec 8 → PortProgram} (h : Started (.inp port rest) p)
    (b : BitVec 8) :
    Started (rest b) p :=
  ⟨h.settled, fun hreset => h.master fun hall => hreset (hall b),
    fun hreset => h.slave fun hall => hreset (hall b)⟩

/-- **A port is written.** -/
theorem Started.out (h : Started (.out port value rest) p)
    (htidy : (PortProgram.out port value rest).Tidy) : Started rest (outb port value p) := by
  obtain ⟨hcmd, hdata, -⟩ := htidy
  -- what is known of a chip that the access does not reset
  have hmaster : ¬ (port = PIC1_CMD ∧ Starts value) → ¬ rest.Resets PIC1_CMD →
      p.master.isr = ∅ ∧ 2 ∉ p.master.irr := fun hnow hreset => h.master fun hall =>
    hall.elim hnow hreset
  have hslave : ¬ (port = PIC2_CMD ∧ Starts value) → ¬ rest.Resets PIC2_CMD →
      p.slave.irr = ∅ ∧ p.slave.isr = ∅ := fun hnow hreset => h.slave fun hall =>
    hall.elim hnow hreset
  unfold outb
  by_cases h1 : port = PIC1_CMD
  · subst h1
    rw [if_pos rfl]
    refine ⟨Pair.settled_settle _, fun hreset => ?_, hslave fun hc => absurd hc.1 (by decide)⟩
    rw [settle_master h.settled]
    by_cases hv : Starts value
    · rw [Chip.writeCommand_starts hv]
      exact ⟨rfl, Finset.notMem_empty 2⟩
    · obtain ⟨hisr, hirr⟩ := hmaster (fun hc => hv hc.2) hreset
      rw [Chip.writeCommand_irr hv]
      refine ⟨?_, hirr⟩
      unfold Chip.writeCommand
      rw [if_neg hv, hisr]
      split
      · rfl
      · exact hisr
  rw [if_neg h1]
  by_cases h2 : port = PIC1_DATA
  · rw [if_pos h2]
    refine ⟨Pair.settled_settle _, fun hreset => ?_, hslave fun hc => ?_⟩
    · rw [settle_master h.settled]
      exact hmaster (fun hc => h1 hc.1) hreset
    · rw [h2] at hc
      exact absurd hc.1 (by decide)
  rw [if_neg h2]
  by_cases h3 : port = PIC2_CMD
  · rw [if_pos h3]
    have hlow : (p.slave.writeCommand value).output = false := by
      rw [Chip.writeCommand_starts (hcmd h3)]
      exact Chip.output_eq_false fun n => Chip.not_offers_of_irr (Finset.notMem_empty n)
    refine ⟨Pair.settled_settle _, fun hreset => ?_, fun _ => ?_⟩
    · rw [Pair.settle_of_low hlow]
      exact hmaster (fun hc => h1 hc.1) hreset
    · rw [Pair.settle_slave, Chip.writeCommand_starts (hcmd h3)]
      exact ⟨rfl, rfl⟩
  rw [if_neg h3]
  by_cases h4 : port = PIC2_DATA
  · rw [if_pos h4]
    have hclear := hslave (fun hc => h3 hc.1) (hdata h4)
    have hlow : (p.slave.writeData value).output = false := by
      refine Chip.output_eq_false fun n => Chip.not_offers_of_irr ?_
      rw [Chip.writeData_irr, hclear.1]
      exact Finset.notMem_empty n
    refine ⟨Pair.settled_settle _, fun hreset => ?_, fun _ => hclear⟩
    rw [Pair.settle_of_low hlow]
    exact hmaster (fun hc => h1 hc.1) hreset
  rw [if_neg h4]
  exact ⟨h.settled, hmaster fun hc => h1 hc.1, hslave fun hc => h3 hc.1⟩

end Started

end PIC

end EtaOs
