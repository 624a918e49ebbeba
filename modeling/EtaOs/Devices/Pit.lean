import EtaOs.Library.Runs
import Mathlib.Data.BitVec

/-!
# The interval timer

`set_divisor` should store the divisor it programs, so that `get_freq` can report the rate
of the chip.  Its parameter shadows the global, which therefore never changes, and the
high byte is cast away before it is shifted, so the chip only ever gets the low byte.

The chip is modelled by the bytes it is sent, low byte first, since that is all the protocol with
it consists of.  That the two sides never agree is stronger than a counterexample: it is proved of
every sequence of calls with at least one call in it.

* `Pit`, `setDivisor`, `setFreq`, `getFreq`: the global and the bytes sent to the ports.
* `programmed`: the divisor the chip has been sent.
* `programmed_run`: what the chip has after a sequence of calls.
* `not_agrees_run`: software and chip disagree after every sequence of calls.
-/

namespace EtaOs

namespace PIT

/-- The global `PIT::divisor` and the bytes written to ports, the latest first. -/
structure Pit where
  divisor : BitVec 16
  ports : List (BitVec 16 × BitVec 8)

def baseFreq : BitVec 64 := 1193182

/-- `outb`. -/
def outb (port : BitVec 16) (value : BitVec 8) (s : Pit) : Pit :=
  { s with ports := (port, value) :: s.ports }

/-- `io_wait`, a write to an unused port. -/
def ioWait (s : Pit) : Pit := outb 0x80 0 s

/-- `set_divisor`.  `divisor = divisor;` assigns the parameter to itself, and the cast of
the high byte binds tighter than the shift. -/
def setDivisor (divisor : BitVec 16) (s : Pit) : Pit :=
  let divisor := if divisor < 100 then 100 else divisor
  let s := outb 0x40 ((divisor &&& 0x00ff).setWidth 8) s
  let s := ioWait s
  outb 0x40 ((((divisor &&& 0xff00).setWidth 8).setWidth 32 >>> 8).setWidth 8) s

/-- `get_freq`. -/
def getFreq (s : Pit) : BitVec 64 := baseFreq / s.divisor.setWidth 64

/-- `set_freq`. -/
def setFreq (freq : BitVec 64) (s : Pit) : Pit := setDivisor ((baseFreq / freq).setWidth 16) s

/-- The state at boot. -/
def boot : Pit := ⟨65535, []⟩

/-! ## Calls -/

/-- A request for another rate.  A frequency of zero divides by zero. -/
inductive Call
  | setDivisor (d : BitVec 16)
  | setFreq (f : BitVec 64) (positive : 1 ≤ f)

/-- One call. -/
def Call.run (s : Pit) : Call → Pit
  | .setDivisor d => PIT.setDivisor d s
  | .setFreq f _ => PIT.setFreq f s

/-- The divisor a call asks for. -/
def Call.requested : Call → BitVec 64
  | .setDivisor d => d.setWidth 64
  | .setFreq f _ => baseFreq / f

/-- A sequence of calls. -/
def run (calls : List Call) (s : Pit) : Pit := calls.foldl Call.run s

/-- The divisor last sent to the chip: the low byte, then the high byte. -/
def programmed (s : Pit) : Option (BitVec 16) :=
  match s.ports.filter fun w => w.1 = 0x40 with
  | hi :: lo :: _ => some (hi.2 ++ lo.2)
  | _ => none

/-- A divisor clamped to what the chip takes. -/
def clamp (n : ℕ) : ℕ := min (max n 100) 65535

/-- **Software and chip agree** on the rate last asked for. -/
structure Agrees (s : Pit) (last : Call) : Prop where
  sent : programmed s = some s.divisor
  freq : ∃ d, programmed s = some d ∧ getFreq s = baseFreq / d.setWidth 64
  clamped : ∃ d, programmed s = some d ∧ d.toNat = clamp last.requested.toNat

/-! ## What the chip gets -/

/-- The global is never assigned. -/
theorem divisor_run (calls : List Call) (s : Pit) : (run calls s).divisor = s.divisor := by
  refine Runs.foldl_invariant (P := fun t : Pit => t.divisor = s.divisor) ?_ calls rfl
  intro t call ht
  cases call with
  | setDivisor d => exact ht
  | setFreq f positive => exact ht

/-- So the reported rate is always that of the divisor at boot. -/
theorem getFreq_run (calls : List Call) : getFreq (run calls boot) = 18 := by
  unfold getFreq
  rw [divisor_run]
  rfl

/-- The divisor `set_divisor` clamps and sends for a call. -/
def Call.narrowed (call : Call) : BitVec 16 :=
  let d := call.requested.setWidth 16
  if d < 100 then 100 else d

theorem toNat_lowByte (e : BitVec 16) : (e &&& 0x00ff).toNat = e.toNat % 256 := by
  rw [BitVec.toNat_and]
  exact Nat.and_two_pow_sub_one_eq_mod e.toNat 8

/-- The cast leaves nothing of the high byte to shift. -/
theorem highByte_eq_zero (e : BitVec 16) :
    (((e &&& 0xff00).setWidth 8).setWidth 32 >>> 8).setWidth 8 = (0 : BitVec 8) := by
  ext i hi
  simp

theorem zero_append_lowByte (e : BitVec 16) :
    (0 : BitVec 8) ++ (e &&& 0x00ff).setWidth 8 = e &&& 0x00ff := by
  apply BitVec.eq_of_toNat_eq
  rw [BitVec.toNat_append, BitVec.toNat_setWidth, toNat_lowByte]
  simp

/-- The chip gets the low byte of the divisor and a zero high byte. -/
theorem programmed_setDivisor (d : BitVec 16) (s : Pit) :
    programmed (setDivisor d s) = some ((if d < 100 then 100 else d) &&& 0x00ff) := by
  unfold setDivisor ioWait outb programmed
  dsimp only
  rw [highByte_eq_zero, List.filter_cons_of_pos (by rfl), List.filter_cons_of_neg (by simp),
    List.filter_cons_of_pos (by rfl)]
  exact congrArg some (zero_append_lowByte _)

theorem programmed_call (s : Pit) (call : Call) :
    programmed (call.run s) = some (call.narrowed &&& 0x00ff) := by
  cases call with
  | setDivisor d =>
      have hd : (d.setWidth 64).setWidth 16 = d := by
        ext i hi
        simp
      simp only [Call.run, Call.narrowed, Call.requested, hd]
      exact programmed_setDivisor d s
  | setFreq f positive => exact programmed_setDivisor _ s

/-- **What the chip has after a sequence of calls**: the low byte of the last request. -/
theorem programmed_run (calls : List Call) (last : Call) (s : Pit) :
    programmed (run (calls ++ [last]) s) = some (last.narrowed &&& 0x00ff) := by
  unfold run
  rw [List.foldl_append, List.foldl_cons, List.foldl_nil]
  exact programmed_call _ last

/-- What the chip has is below 256. -/
theorem programmed_lt {calls : List Call} {last : Call} {s : Pit} {d : BitVec 16}
    (h : programmed (run (calls ++ [last]) s) = some d) : d.toNat < 256 := by
  rw [programmed_run, Option.some_inj] at h
  rw [← h, toNat_lowByte]
  exact Nat.mod_lt _ (by omega)

/-- The chip runs at the rate asked for exactly when the request fits in a byte. -/
theorem clamped_run_iff (calls : List Call) (last : Call) (s : Pit) :
    (∃ d, programmed (run (calls ++ [last]) s) = some d ∧
      d.toNat = clamp last.requested.toNat) ↔ last.requested.toNat < 256 := by
  constructor
  · rintro ⟨d, hd, hclamp⟩
    have hlt := programmed_lt hd
    unfold clamp at hclamp
    omega
  · intro hlt
    refine ⟨_, programmed_run calls last s, ?_⟩
    have hd : (last.requested.setWidth 16).toNat = last.requested.toNat := by
      rw [BitVec.toNat_setWidth]
      omega
    rw [toNat_lowByte]
    unfold clamp Call.narrowed
    dsimp only
    split
    next h =>
      have h' := BitVec.lt_def.mp h
      rw [hd] at h'
      change _ < 100 at h'
      show 100 % 256 = _
      omega
    next h =>
      have h' : ¬ (last.requested.setWidth 16).toNat < 100 := fun hn => h (BitVec.lt_def.mpr hn)
      rw [hd] at h' ⊢
      omega

/-- **Software and chip never agree**: the chip has at most a byte, the global 65535. -/
theorem not_agrees_run (calls : List Call) (last : Call) :
    ¬ Agrees (run (calls ++ [last]) boot) last := by
  intro h
  have hlt := programmed_lt h.sent
  rw [divisor_run] at hlt
  exact absurd hlt (by decide)

/-- The call the kernel makes at boot leaves the chip with divisor 0. -/
theorem not_agrees_boot : ¬ Agrees (run [.setDivisor 2048] boot) (.setDivisor 2048) := by
  intro h
  exact absurd h.sent (by decide)

end PIT

end EtaOs
