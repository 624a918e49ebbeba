import EtaOs.Paging.Entry

/-!
# A page-table entry as a record

An entry packs eleven flags and an address into one word.  The setters keep these fields
apart: each call changes its own field and nothing else.  The getter of a flag does not: it
compares before it masks, and so reads the Present flag for every flag it is asked for.

The record is the specification, and the word is compared with it call by call.  The precedence
slip in the getter is not a matter of one flag: with it, the answers agree exactly as long as every
flag that is asked for has the value of the Present flag.

* `EntryOp`: a call of a setter.
* `EntryRecord`: the fields of an entry, each on its own.
* `record_run`, `record_runs`: setters on the word are updates of the record.
* `getFlag_eq`, `getAddress_eq`: what the getters read.
* `behavesAsRecord_iff`: the sequences of calls after which the getters answer as the record.
-/

namespace EtaOs

/-- A call of a setter. -/
inductive EntryOp
  | setFlag (flag : PtFlag) (enabled : Bool)
  | setAddress (addr : BitVec 64)

/-- One call. -/
def EntryOp.run (e : PageDirEntry) : EntryOp → PageDirEntry
  | .setFlag flag enabled => e.setFlag flag enabled
  | .setAddress addr => e.setAddress addr

/-- The bits of the field a call sets. -/
def EntryOp.Owns : EntryOp → ℕ → Prop
  | .setFlag flag _, j => j = flag.bit
  | .setAddress _, j => 12 ≤ j ∧ j < 52

/-- A record of independent fields: the flags and a frame number of 40 bits. -/
@[ext] structure EntryRecord where
  flag : PtFlag → Bool
  address : BitVec 40

/-- The update of one field. -/
def EntryRecord.update (r : EntryRecord) : EntryOp → EntryRecord
  | .setFlag flag enabled => { r with flag := Function.update r.flag flag enabled }
  | .setAddress addr => { r with address := addr.setWidth 40 }

/-- The fields stored in an entry. -/
def PageDirEntry.record (e : PageDirEntry) : EntryRecord where
  flag := fun flag => e.value.getLsbD flag.bit
  address := e.value.extractLsb' 12 40

/-- The entry after a sequence of calls. -/
def PageDirEntry.runs (e : PageDirEntry) (ops : List EntryOp) : PageDirEntry :=
  ops.foldl EntryOp.run e

/-- The record after the same calls: every flag has the value set last, the address too. -/
def EntryRecord.updates (r : EntryRecord) (ops : List EntryOp) : EntryRecord :=
  ops.foldl EntryRecord.update r

/-! ## Setters -/

theorem PtFlag.bit_injective : Function.Injective PtFlag.bit := by
  intro flag flag' h
  cases flag <;> cases flag' <;> first | rfl | exact absurd h (by decide)

/-- No flag is in the address field. -/
theorem PtFlag.not_address (flag : PtFlag) : ¬ (12 ≤ flag.bit ∧ flag.bit < 52) := by
  cases flag <;> decide

/-- **A call changes its own field only.** -/
theorem getLsbD_run_of_not_owns (e : PageDirEntry) {op : EntryOp} {j : ℕ} (h : ¬ op.Owns j) :
    (op.run e).value.getLsbD j = e.value.getLsbD j := by
  cases op with
  | setFlag flag enabled => exact (getLsbD_setFlag e flag enabled j).trans (if_neg h)
  | setAddress addr =>
      rcases Nat.lt_or_ge j 64 with hj | hj
      · exact (getLsbD_setAddress e addr hj).trans (if_neg h)
      · rw [BitVec.getLsbD_of_ge _ _ hj, BitVec.getLsbD_of_ge _ _ hj]

/-- The address field after a call that sets a flag. -/
theorem address_setFlag (e : PageDirEntry) (flag : PtFlag) (enabled : Bool) :
    (e.setFlag flag enabled).record.address = e.record.address := by
  apply BitVec.eq_of_getLsbD_eq
  intro j hj
  have hne : ¬ 12 + j = flag.bit := fun h => flag.not_address (by omega)
  simp only [PageDirEntry.record, BitVec.getLsbD_extractLsb', getLsbD_setFlag, hne, if_false]

/-- The address field after a call that sets it. -/
theorem address_setAddress (e : PageDirEntry) (addr : BitVec 64) :
    (e.setAddress addr).record.address = addr.setWidth 40 := by
  apply BitVec.eq_of_getLsbD_eq
  intro j hj
  simp only [PageDirEntry.record, BitVec.getLsbD_extractLsb', BitVec.getLsbD_setWidth]
  rw [getLsbD_setAddress e addr (by omega), if_pos (by omega), Nat.add_sub_cancel_left]

/-- **A setter is the update of a field.** -/
theorem record_run (e : PageDirEntry) (op : EntryOp) : (op.run e).record = e.record.update op := by
  cases op with
  | setFlag flag enabled =>
      refine EntryRecord.ext (funext fun flag' => ?_) (address_setFlag e flag enabled)
      show (e.setFlag flag enabled).value.getLsbD flag'.bit =
        Function.update e.record.flag flag enabled flag'
      rw [getLsbD_setFlag, Function.update_apply]
      exact if_congr PtFlag.bit_injective.eq_iff rfl rfl
  | setAddress addr =>
      refine EntryRecord.ext (funext fun flag => ?_) (address_setAddress e addr)
      exact getLsbD_run_of_not_owns e flag.not_address

/-- **Setters refine the record.** -/
theorem record_runs (ops : List EntryOp) (e : PageDirEntry) :
    (e.runs ops).record = e.record.updates ops := by
  induction ops generalizing e with
  | nil => rfl
  | cons op ops ih =>
      rw [PageDirEntry.runs, List.foldl_cons, EntryRecord.updates, List.foldl_cons, ← record_run]
      exact ih (op.run e)

/-! ## Getters -/

/-- **The getter of a flag reads the Present flag**, whatever flag it is asked for. -/
theorem getFlag_eq (e : PageDirEntry) (flag : PtFlag) :
    e.getFlag flag = e.record.flag .present := by
  have hsame : e.getFlag flag = e.getFlag .present := by
    have hsel : 1#64 <<< flag.bit > 0 := by cases flag <;> decide
    have hsel' : 1#64 <<< PtFlag.present.bit > 0 := by decide
    simp only [PageDirEntry.getFlag, hsel, hsel', if_true]
  rw [hsame, getFlag_present]
  rfl

/-- The getter of the address reads the address field. -/
theorem getAddress_eq (e : PageDirEntry) : e.getAddress = e.record.address.setWidth 64 := by
  apply BitVec.eq_of_getLsbD_eq
  intro j hj
  simp only [PageDirEntry.getAddress, PageDirEntry.record, BitVec.getLsbD_ushiftRight,
    BitVec.getLsbD_and, BitVec.getLsbD_setWidth, BitVec.getLsbD_extractLsb']
  rcases Nat.lt_or_ge (12 + j) 64 with h | h
  · rw [getLsbD_addressMask h]
    grind
  · rw [BitVec.getLsbD_of_ge _ _ h, BitVec.getLsbD_of_ge _ _ h]
    simp

/-- **The entry behaves as a record of independent fields** over a sequence of calls: afterwards
the getters read what was set last, and each call kept all bits outside its own field. -/
structure BehavesAsRecord (e : PageDirEntry) (ops : List EntryOp) : Prop where
  getFlag : ∀ flag, (e.runs ops).getFlag flag = (e.record.updates ops).flag flag
  getAddress : (e.runs ops).getAddress = (e.record.updates ops).address.setWidth 64
  keeps : ∀ pre op post, ops = pre ++ op :: post → ∀ j, ¬ op.Owns j →
    (e.runs (pre ++ [op])).value.getLsbD j = (e.runs pre).value.getLsbD j

/-- **The sequences over which an entry behaves as a record**: those that leave every flag with
the value of the Present flag. -/
theorem behavesAsRecord_iff (e : PageDirEntry) (ops : List EntryOp) :
    BehavesAsRecord e ops ↔
      ∀ flag, (e.record.updates ops).flag flag = (e.record.updates ops).flag .present := by
  have hflag : ∀ flag, (e.runs ops).getFlag flag = (e.record.updates ops).flag .present := by
    intro flag
    rw [getFlag_eq, record_runs]
  constructor
  · intro h flag
    rw [← h.getFlag, hflag]
  · intro h
    refine ⟨fun flag => (hflag flag).trans (h flag).symm, ?_, ?_⟩
    · rw [getAddress_eq, record_runs]
    · intro pre op post _ j hj
      rw [PageDirEntry.runs, List.foldl_append]
      exact getLsbD_run_of_not_owns _ hj

/-- A flag set on an empty entry is not read back. -/
theorem not_behavesAsRecord_readWrite :
    ¬ BehavesAsRecord ⟨0⟩ [.setFlag .readWrite true] := by
  intro h
  exact absurd (h.getFlag .readWrite) (by decide)

end EtaOs
