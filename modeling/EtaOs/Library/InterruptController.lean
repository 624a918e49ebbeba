import Mathlib.Data.BitVec
import Mathlib.Data.Finset.Max
import Mathlib.Data.Fintype.Basic

/-!
# The 8259A interrupt controller

A chip latches the edges on eight lines.  It offers the processor the lines that have been
raised, are not masked, and come before every line in service; the line of the smallest number
is acknowledged first.  Two chips are cascaded: an edge of the output of the second raises
line 2 of the first.

The chip is programmed through a command port and a data port.  Of the command words only the
start of the initialisation and the unspecific end of an interrupt do anything here; a chip that
is told to rotate priorities, to poll or to read out a register is not described.  A line that
has been raised stays up until it is acknowledged.

* `Config`, `Config.command`, `Config.data`: the registers that are programmed.
* `Chip`: a chip; `Chip.Offers`, `Chip.Next`, the lines it offers.
* `Pair`: two chips; `Pair.settle`, the line between them; `Pair.Acks`, an acknowledged interrupt.
-/

namespace Pic8259

/-- The eight lines have numbers. -/
instance eightLines : NeZero 8 := ⟨by decide⟩

/-! ## The registers that are programmed -/

/-- The word that the data port takes next. -/
inductive Phase
  | icw2
  | icw3
  | icw4
  | ready
  deriving DecidableEq

/-- The mask, the words of the initialisation, and how far it has come. -/
structure Config where
  imr : BitVec 8
  base : BitVec 8
  cascade : BitVec 8
  mode : BitVec 8
  phase : Phase
  single : Bool
  fourth : Bool
  deriving DecidableEq

/-- The word starts the initialisation. -/
def Starts (v : BitVec 8) : Prop := v.getLsbD 4 = true

instance (v : BitVec 8) : Decidable (Starts v) := inferInstanceAs (Decidable (_ = _))

namespace Config

/-- A word at the command port. -/
def command (c : Config) (v : BitVec 8) : Config :=
  if Starts v then
    { c with imr := 0, mode := 0, phase := .icw2, single := v.getLsbD 1, fourth := v.getLsbD 0 }
  else c

/-- A word at the data port. -/
def data (c : Config) (v : BitVec 8) : Config :=
  let fourthOr := if c.fourth then Phase.icw4 else Phase.ready
  match c.phase with
  | .icw2 => { c with base := v &&& 0xf8, phase := if c.single then fourthOr else .icw3 }
  | .icw3 => { c with cascade := v, phase := fourthOr }
  | .icw4 => { c with mode := v, phase := .ready }
  | .ready => { c with imr := v }

end Config

/-! ## One chip -/

/-- A chip: the lines that are requested, the lines in service, and the registers. -/
structure Chip where
  irr : Finset (Fin 8)
  isr : Finset (Fin 8)
  config : Config

namespace Chip

/-- A word at the command port: the start of the initialisation, which forgets the edges, or the
end of the interrupt of the highest priority in service. -/
def writeCommand (c : Chip) (v : BitVec 8) : Chip :=
  if Starts v then ⟨∅, ∅, c.config.command v⟩
  else if v = 0x20 then { c with isr := c.isr.filter fun n => ∃ m ∈ c.isr, m < n }
  else c

/-- A word at the data port. -/
def writeData (c : Chip) (v : BitVec 8) : Chip := { c with config := c.config.data v }

/-- An edge on a line. -/
def raise (c : Chip) (n : Fin 8) : Chip := { c with irr := insert n c.irr }

/-- The processor takes the request of a line.  Without automatic end it is in service then. -/
def acknowledge (c : Chip) (n : Fin 8) : Chip :=
  { c with
    irr := c.irr.erase n
    isr := if c.config.mode.getLsbD 1 then c.isr else insert n c.isr }

/-- The vector of a line. -/
def vector (c : Chip) (n : Fin 8) : BitVec 8 := c.config.base ||| BitVec.ofNat 8 n.val

/-- The chip offers the request of a line. -/
def Offers (c : Chip) (n : Fin 8) : Prop :=
  n ∈ c.irr ∧ c.config.imr.getLsbD n = false ∧ ∀ m ∈ c.isr, n < m

instance (c : Chip) (n : Fin 8) : Decidable (c.Offers n) := inferInstanceAs (Decidable (_ ∧ _))

/-- The line that is acknowledged next. -/
def Next (c : Chip) (n : Fin 8) : Prop := c.Offers n ∧ ∀ m, c.Offers m → n ≤ m

/-- The level of the output. -/
def output (c : Chip) : Bool := decide (∃ n, c.Offers n)

variable {c : Chip} {n m : Fin 8} {v : BitVec 8}

@[simp] theorem raise_config : (c.raise n).config = c.config := rfl

@[simp] theorem raise_isr : (c.raise n).isr = c.isr := rfl

@[simp] theorem acknowledge_config : (c.acknowledge n).config = c.config := rfl

@[simp] theorem writeData_irr : (c.writeData v).irr = c.irr := rfl

@[simp] theorem writeData_isr : (c.writeData v).isr = c.isr := rfl

theorem writeCommand_config : (c.writeCommand v).config = c.config.command v := by
  unfold writeCommand Config.command
  split
  · rfl
  · split <;> rfl

theorem writeCommand_starts (hv : Starts v) : c.writeCommand v = ⟨∅, ∅, c.config.command v⟩ :=
  if_pos hv

theorem writeCommand_irr (hv : ¬ Starts v) : (c.writeCommand v).irr = c.irr := by
  unfold writeCommand
  rw [if_neg hv]
  split <;> rfl

/-- **The end of an interrupt** with nothing else in service. -/
theorem writeCommand_end (hisr : c.isr = {n}) : c.writeCommand 0x20 = { c with isr := ∅ } := by
  have hstarts : ¬ Starts 0x20 := by decide
  unfold writeCommand
  rw [if_neg hstarts, if_pos rfl, hisr]
  simp

/-- A chip that has not been asked for an interrupt has a low output. -/
theorem output_eq_false (h : ∀ n, ¬ c.Offers n) : c.output = false := by
  unfold output
  rw [decide_eq_false]
  rintro ⟨n, hn⟩
  exact h n hn

theorem not_offers_of_irr (hn : n ∉ c.irr) : ¬ c.Offers n := fun h => hn h.1

theorem not_offers_of_masked (hn : c.config.imr.getLsbD n = true) : ¬ c.Offers n := by
  rintro ⟨-, hclear, -⟩
  rw [hn] at hclear
  exact absurd hclear (by decide)

theorem offers_of_isr_empty (hirr : n ∈ c.irr) (hmask : c.config.imr.getLsbD n = false)
    (hisr : c.isr = ∅) : c.Offers n := by
  refine ⟨hirr, hmask, fun m hm => ?_⟩
  rw [hisr] at hm
  exact absurd hm (Finset.notMem_empty m)

/-- A chip that offers a line has a line to be acknowledged next. -/
theorem exists_next (h : c.Offers n) : ∃ m, c.Next m := by
  have hne : (Finset.univ.filter c.Offers).Nonempty := ⟨n, by simp [h]⟩
  refine ⟨(Finset.univ.filter c.Offers).min' hne, ?_, fun m hm => ?_⟩
  · exact (Finset.mem_filter.mp (Finset.min'_mem _ hne)).2
  · exact Finset.min'_le _ _ (by simp [hm])

end Chip

/-! ## Two chips -/

/-- A line of the pair. -/
inductive Line
  | master (n : Fin 8)
  | slave (n : Fin 8)
  deriving DecidableEq

/-- Two chips, and the level that the first has seen last on the line of the second. -/
structure Pair where
  master : Chip
  slave : Chip
  line : Bool

namespace Pair

/-- The output of the second chip has been seen by the first, which latches an edge. -/
def settle (p : Pair) : Pair where
  master := if p.slave.output && !p.line then p.master.raise 2 else p.master
  slave := p.slave
  line := p.slave.output

/-- An edge on a line. -/
def raise (p : Pair) : Line → Pair
  | .master n => settle { p with master := p.master.raise n }
  | .slave n => settle { p with slave := p.slave.raise n }

/-- **An interrupt is acknowledged**: the vector that the processor gets.  Where the line of the
first chip belongs to the second one, that one gives the vector, the one of line 7 if it offers
nothing any more. -/
inductive Acks : Pair → BitVec 8 → Pair → Prop
  | direct (p : Pair) (n : Fin 8) (hn : p.master.Next n)
      (hline : p.master.config.cascade.getLsbD n = false) :
      Acks p (p.master.vector n) (settle { p with master := p.master.acknowledge n })
  | cascaded (p : Pair) (n k : Fin 8) (hn : p.master.Next n)
      (hline : p.master.config.cascade.getLsbD n = true) (hk : p.slave.Next k) :
      Acks p (p.slave.vector k)
        (settle { p with master := p.master.acknowledge n, slave := p.slave.acknowledge k })
  | spurious (p : Pair) (n : Fin 8) (hn : p.master.Next n)
      (hline : p.master.config.cascade.getLsbD n = true) (hk : ∀ k, ¬ p.slave.Offers k) :
      Acks p (p.slave.vector 7) (settle { p with master := p.master.acknowledge n })

variable {p : Pair}

/-- The first chip has seen the output of the second. -/
def Settled (p : Pair) : Prop := p.line = p.slave.output

theorem settled_settle (p : Pair) : p.settle.Settled := rfl

@[simp] theorem settle_slave : p.settle.slave = p.slave := rfl

@[simp] theorem settle_master_config : p.settle.master.config = p.master.config := by
  unfold settle
  dsimp only
  split <;> rfl

@[simp] theorem settle_master_isr : p.settle.master.isr = p.master.isr := by
  unfold settle
  dsimp only
  split <;> rfl

/-- The line between the chips is line 2. -/
theorem mem_settle_irr {n : Fin 8} (hn : n ≠ 2) :
    n ∈ p.settle.master.irr ↔ n ∈ p.master.irr := by
  unfold settle
  dsimp only
  split
  · exact Finset.mem_insert.trans (or_iff_right hn)
  · exact Iff.rfl

/-- **No edge** reaches the first chip when the output of the second is low. -/
theorem settle_of_low (h : p.slave.output = false) : p.settle.master = p.master := by
  unfold settle
  simp [h]

/-- Nor when it has not changed. -/
theorem settle_of_same (h : p.line = p.slave.output) : p.settle.master = p.master := by
  unfold settle
  cases hout : p.slave.output
  · simp
  · simp [h, hout]

end Pair

end Pic8259
