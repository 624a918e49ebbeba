import EtaOs.Heap.Malloc
import EtaOs.Library.Emitting

/-!
# The heap with a record of what it does

`malloc` and `free` once more, as programs that emit an event for every access to a field of a
header, every call of `extend_heap`, and every size they compute.  The accesses are those of the
source, one by one and in its order.

The programs are written in `Emitting`, whose only effect is to append events, and erasing the
events gives back the functions of `Heap/Model.lean`.  So nothing that is proved of the record can
be about another `malloc`.

* `HeapEvent`: the events.  An access comes with the bounds of the heap at that time.
* `splitLogged`, `combineForwardLogged`, `combineBackwardLogged`, `freeLogged`,
  `extendHeapLogged`, `scanLogged`, `mallocLogged`: the functions of `heap.cpp`.
* `mallocLogged_spec`: they compute what the functions without the record compute.
* `mallocLogged_continues`: more fuel makes a run longer, and keeps its events.
-/

namespace EtaOs

open ByteMemory HeapSegHeader Emitting Prog

/-- What the heap does: it accesses a field of a header, with the heap from `heapStart` to
`heapEnd`; it calls `extend_heap`; it computes a size, which has a value in the type that the
source keeps it in, and an exact value. -/
inductive HeapEvent where
  | field (seg heapStart heapEnd : Addr)
  | extend (length : BitVec 64)
  | size (value exact : ℤ)

/-- Programs of the heap. -/
abbrev HeapProg := Prog Heap HeapEvent

/-- An access to the header `seg`. -/
def Heap.access (h : Heap) (seg : Addr) : HeapEvent := .field seg h.heapStart h.heapEnd

/-- A read of a field. -/
def readField {α : Type} (field : Mem → Addr → α) (seg : Addr) : HeapProg α := do
  let h ← get
  emit (h.access seg)
  return field h.mem seg

/-- A write of a field. -/
def writeField {α : Type} (setField : Mem → Addr → α → Mem) (seg : Addr) (v : α) :
    HeapProg Unit := do
  let h ← get
  emit (h.access seg)
  modify fun h => { h with mem := setField h.mem seg v }

@[simp] theorem run_readField {α : Type} (field : Mem → Addr → α) (seg : Addr) (h : Heap) :
    (readField field seg).run h = ⟨field h.mem seg, h, [h.access seg]⟩ := rfl

@[simp] theorem run_writeField {α : Type} (setField : Mem → Addr → α → Mem) (seg : Addr) (v : α)
    (h : Heap) : (writeField setField seg v).run h =
      ⟨(), { h with mem := setField h.mem seg v }, [h.access seg]⟩ := rfl

/-! ## The functions of `heap.cpp` -/

/-- `HeapSegHeader::split`.  The remaining length is an `int64_t`. -/
def splitLogged (this : Addr) (splitLength : BitVec 64) : HeapProg Addr := do
  if splitLength < 0x10 then return 0
  else
    let len ← readField length this
    let splitSegLength := len - splitLength - 32
    emit (.size splitSegLength.toInt (len.toNat - splitLength.toNat - 32))
    if splitSegLength.slt 0x10 then return 0
    else
      let newSplitHeader := this + splitLength + 32
      writeField setLast (← readField next this) newSplitHeader
      writeField setNext newSplitHeader (← readField next this)
      writeField setNext this newSplitHeader
      writeField setLast newSplitHeader this
      writeField setLength newSplitHeader splitSegLength
      writeField setFree newSplitHeader (← readField HeapSegHeader.free this)
      writeField setLength this splitLength
      modify fun h =>
        { h with lastHeader := if h.lastHeader = this then newSplitHeader else h.lastHeader }
      return newSplitHeader

/-- `HeapSegHeader::combine_forward`. -/
def combineForwardLogged (this : Addr) : HeapProg Unit := do
  if (← readField next this) = 0 then return ()
  else if (← readField HeapSegHeader.free (← readField next this)) = false then return ()
  else
    let following ← readField next this
    modify fun h => { h with lastHeader := if following = h.lastHeader then this else h.lastHeader }
    if (← readField next (← readField next this)) ≠ 0 then
      writeField setLast (← readField next (← readField next this)) this
    let len ← readField length this
    let followingLen ← readField length (← readField next this)
    emit (.size (len + followingLen + 32).toNat (len.toNat + followingLen.toNat + 32))
    writeField setLength this (len + followingLen + 32)

/-- `HeapSegHeader::combine_backward`. -/
def combineBackwardLogged (this : Addr) : HeapProg Unit := do
  if (← readField last this) ≠ 0 then
    if (← readField HeapSegHeader.free (← readField last this)) = true then
      combineForwardLogged (← readField last this)

/-- `free`. -/
def freeLogged (addr : Addr) : HeapProg Unit := do
  let seg := addr - 32
  writeField setFree seg true
  combineForwardLogged seg
  combineBackwardLogged seg

/-- A size rounded up to a multiple of `unit`, as the source rounds it: what is left over is
subtracted and `unit` added, when anything is left over. -/
def roundLogged (unit size : BitVec 64) : HeapProg (BitVec 64) := do
  if 0 < size % unit then
    emit (.size (size - size % unit + unit).toNat (size.toNat - (size % unit).toNat + unit.toNat))
    return size - size % unit + unit
  else return size

/-- `extend_heap`. -/
def extendHeapLogged (length : BitVec 64) : HeapProg Unit := do
  emit (.extend length)
  let length ← roundLogged 0x1000 length
  let pageCount := length / 0x1000
  let newSegment := (← get).heapEnd
  modify (growLoop pageCount.toNat)
  writeField setFree newSegment true
  writeField setLast newSegment (← get).lastHeader
  writeField setNext (← get).lastHeader newSegment
  modify fun h => { h with lastHeader := newSegment }
  writeField setNext newSegment 0
  emit (.size (length - 32).toNat (length.toNat - 32))
  writeField setLength newSegment (length - 32)
  combineBackwardLogged newSegment

/-- The `while (true)` loop of `malloc`. -/
def scanLogged : ℕ → BitVec 64 → Addr → HeapProg (Option (Option Addr))
  | 0, _, _ => return none
  | fuel + 1, size, curSegment => do
      if (← readField HeapSegHeader.free curSegment) = true then
        if size < (← readField length curSegment) then
          let _ ← splitLogged curSegment size
          writeField setFree curSegment false
          return some (some (curSegment + 32))
        else if (← readField length curSegment) = size then
          let _ ← readField length curSegment
          return some (some (curSegment + 32))
        else if (← readField next curSegment) = 0 then return some none
        else scanLogged fuel size (← readField next curSegment)
      else if (← readField next curSegment) = 0 then return some none
      else scanLogged fuel size (← readField next curSegment)

/-- `malloc`. -/
def mallocLogged : ℕ → BitVec 64 → HeapProg (Option Addr)
  | 0, _ => return none
  | fuel + 1, size => do
      let size ← roundLogged 0x10 size
      if size = 0 then return some 0
      else
        let h ← get
        (scanLogged (fuel + 1) size h.heapStart).andThen fun found =>
          match found with
          | some p => return some p
          | none => do
              extendHeapLogged size
              mallocLogged fuel size

/-! ## The record changes nothing -/

theorem splitLogged_spec (this : Addr) (splitLength : BitVec 64) (h : Heap) :
    ((splitLogged this splitLength).run h).value = (split this splitLength h).1 ∧
      ((splitLogged this splitLength).run h).state = (split this splitLength h).2 := by
  unfold splitLogged split
  by_cases h16 : splitLength < 0x10
  · simp only [h16, if_true]
    exact ⟨rfl, rfl⟩
  · by_cases hneg : (length h.mem this - splitLength - 32).slt 0x10
    · simp only [h16, if_false, run_bind, run_readField, run_emit, hneg, if_true]
      exact ⟨rfl, rfl⟩
    · simp only [h16, if_false, run_bind, run_readField, run_emit, hneg, Bool.false_eq_true]
      exact ⟨rfl, rfl⟩

theorem combineForwardLogged_spec (this : Addr) (h : Heap) :
    ((combineForwardLogged this).run h).state = combineForward this h := by
  unfold combineForwardLogged combineForward
  by_cases hnext : next h.mem this = 0
  · simp only [run_bind, run_readField, hnext, if_true]
    rfl
  · cases hfree : HeapSegHeader.free h.mem (next h.mem this) with
    | false =>
        simp only [run_bind, run_readField, hnext, hfree, if_true, if_false]
        rfl
    | true =>
        by_cases hbehind : next h.mem (next h.mem this) = 0
        · simp only [run_bind, run_readField, run_modify, hnext, hfree, hbehind, if_false, ne_eq,
            not_true_eq_false, Bool.true_eq_false]
          rfl
        · simp only [run_bind, run_readField, run_modify, hnext, hfree, hbehind, if_false, ne_eq,
            not_false_eq_true, if_true, Bool.true_eq_false]
          rfl

theorem combineBackwardLogged_spec (this : Addr) (h : Heap) :
    ((combineBackwardLogged this).run h).state = combineBackward this h := by
  unfold combineBackwardLogged combineBackward
  by_cases hlast : last h.mem this = 0
  · simp only [run_bind, run_readField, hlast, ne_eq, not_true_eq_false, false_and, if_false]
    rfl
  · cases hfree : HeapSegHeader.free h.mem (last h.mem this) with
    | true =>
        simp only [run_bind, run_readField, hlast, hfree, ne_eq, not_false_eq_true, true_and,
          if_true]
        exact combineForwardLogged_spec _ h
    | false =>
        simp only [run_bind, run_readField, hlast, hfree, ne_eq, not_false_eq_true, true_and,
          if_true, if_false, Bool.false_eq_true]
        rfl

theorem freeLogged_spec (addr : Addr) (h : Heap) :
    ((freeLogged addr).run h).state = free addr h := by
  unfold freeLogged free
  simp only [run_bind, run_writeField, combineForwardLogged_spec, combineBackwardLogged_spec]

theorem roundLogged_spec (unit size : BitVec 64) (h : Heap) :
    ((roundLogged unit size).run h).value =
        (if 0 < size % unit then size - size % unit + unit else size) ∧
      ((roundLogged unit size).run h).state = h := by
  unfold roundLogged
  split_ifs <;> exact ⟨rfl, rfl⟩

theorem roundLogged_malloc (size : BitVec 64) (h : Heap) :
    ((roundLogged 0x10 size).run h).value = roundUp size ∧
      ((roundLogged 0x10 size).run h).state = h :=
  roundLogged_spec 0x10 size h

theorem roundLogged_extend (length : BitVec 64) (h : Heap) :
    ((roundLogged 0x1000 length).run h).value = pageRoundUp length ∧
      ((roundLogged 0x1000 length).run h).state = h := by
  obtain ⟨hvalue, hstate⟩ := roundLogged_spec 0x1000 length h
  refine ⟨hvalue.trans ?_, hstate⟩
  unfold pageRoundUp
  have hiff : 0 < length % 0x1000 ↔ length % 0x1000 ≠ 0 := by
    constructor <;> intro hpos <;> bv_omega
  simp only [hiff]

theorem extendHeapLogged_spec (length : BitVec 64) (h : Heap) :
    ((extendHeapLogged length).run h).state = extendHeap length h := by
  obtain ⟨hvalue, hstate⟩ := roundLogged_extend length h
  unfold extendHeapLogged extendHeap
  simp only [run_bind, run_emit, run_get, run_modify, run_writeField, hvalue, hstate,
    combineBackwardLogged_spec]

/-- The loop of `malloc` computes what it computes without the record. -/
theorem scanLogged_spec (fuel : ℕ) (size : BitVec 64) (a : Addr) (h : Heap) :
    match scan fuel size a h with
    | none => ((scanLogged fuel size a).run h).value = none
    | some (found, h') => ((scanLogged fuel size a).run h).value = some found ∧
        ((scanLogged fuel size a).run h).state = h' := by
  induction fuel generalizing a with
  | zero => rfl
  | succ fuel ih =>
      rw [scan, scanLogged]
      have hrest := ih (next h.mem a)
      cases hfree : HeapSegHeader.free h.mem a with
      | true =>
          by_cases hlt : size < length h.mem a
          · obtain ⟨-, hstate⟩ := splitLogged_spec a size h
            simp only [run_bind, run_readField, run_writeField, hfree, hlt, true_and, if_true,
              hstate]
            exact ⟨rfl, rfl⟩
          · by_cases heq : length h.mem a = size
            · subst heq
              simp only [run_bind, run_readField, hfree, hlt, true_and, if_true, if_false]
              exact ⟨rfl, rfl⟩
            · by_cases hnext : next h.mem a = 0
              · simp only [run_bind, run_readField, hfree, hlt, heq, hnext, true_and, if_true,
                  if_false]
                exact ⟨rfl, rfl⟩
              · simp only [run_bind, run_readField, hfree, hlt, heq, hnext, true_and, if_true,
                  if_false]
                exact hrest
      | false =>
          by_cases hnext : next h.mem a = 0
          · simp only [run_bind, run_readField, hfree, hnext, false_and, if_true, if_false,
              Bool.false_eq_true]
            exact ⟨rfl, rfl⟩
          · simp only [run_bind, run_readField, hfree, hnext, false_and, if_false,
              Bool.false_eq_true]
            exact hrest

/-- **`malloc` computes what it computes without the record.** -/
theorem mallocLogged_spec (fuel : ℕ) (size : BitVec 64) (h : Heap) :
    match malloc fuel size h with
    | none => ((mallocLogged fuel size).run h).value = none
    | some (p, h') => ((mallocLogged fuel size).run h).value = some p ∧
        ((mallocLogged fuel size).run h).state = h' := by
  induction fuel generalizing size h with
  | zero => rfl
  | succ fuel ih =>
      rw [malloc, mallocLogged]
      obtain ⟨hvalue, hstate⟩ := roundLogged_malloc size h
      by_cases h0 : roundUp size = 0
      · simp only [run_bind, hvalue, hstate, h0, if_true]
        exact ⟨rfl, rfl⟩
      · have hscan := scanLogged_spec (fuel + 1) (roundUp size) h.heapStart h
        simp only [run_bind, hvalue, hstate, h0, if_false, run_get]
        cases hfound : scan (fuel + 1) (roundUp size) h.heapStart h with
        | none =>
            rw [hfound] at hscan
            simp only [andThen, run_bind, hscan]
            rfl
        | some found =>
            obtain ⟨found, g⟩ := found
            rw [hfound] at hscan
            simp only at hscan
            cases found with
            | some p =>
                simp only [andThen, run_bind, hscan]
                exact ⟨rfl, rfl⟩
            | none =>
                simp only [andThen, run_bind, hscan, extendHeapLogged_spec]
                exact ih (roundUp size) (extendHeap (roundUp size) g)

/-- A run with the record that has a value is a run without it. -/
theorem malloc_of_logged {fuel : ℕ} {size : BitVec 64} {h h' : Heap} {p : Addr}
    {es : List HeapEvent} (hrun : (mallocLogged fuel size).run h = ⟨some p, h', es⟩) :
    malloc fuel size h = some (p, h') := by
  have hspec := mallocLogged_spec fuel size h
  rw [hrun] at hspec
  cases hmalloc : malloc fuel size h with
  | none =>
      rw [hmalloc] at hspec
      exact absurd hspec (by simp)
  | some x =>
      obtain ⟨q, g⟩ := x
      rw [hmalloc] at hspec
      obtain ⟨hvalue, rfl⟩ := hspec
      rw [Option.some.inj hvalue]

/-! ## Fuel -/

theorem scanLogged_continues (fuel : ℕ) (size : BitVec 64) (a : Addr) :
    Continues (scanLogged fuel size a) (scanLogged (fuel + 1) size a) := by
  induction fuel generalizing a with
  | zero => exact Continues.of_none _
  | succ fuel ih =>
      rw [scanLogged, scanLogged]
      refine Continues.bind fun isFree => Continues.ite ?_ ?_
      · refine Continues.bind fun len => Continues.ite (Continues.refl _) ?_
        refine Continues.bind fun len => Continues.ite (Continues.refl _) ?_
        refine Continues.bind fun link => Continues.ite (Continues.refl _) ?_
        exact Continues.bind fun link => ih link
      · refine Continues.bind fun link => Continues.ite (Continues.refl _) ?_
        exact Continues.bind fun link => ih link

/-- **More fuel makes a run longer**, and keeps its events. -/
theorem mallocLogged_continues (fuel : ℕ) (size : BitVec 64) :
    Continues (mallocLogged fuel size) (mallocLogged (fuel + 1) size) := by
  induction fuel generalizing size with
  | zero => exact Continues.of_none _
  | succ fuel ih =>
      rw [mallocLogged, mallocLogged]
      refine Continues.bind fun size => Continues.ite (Continues.refl _) ?_
      refine Continues.bind fun h => (scanLogged_continues _ size _).andThen fun found => ?_
      cases found with
      | some p => exact Continues.refl _
      | none => exact Continues.bind fun _ => ih size

theorem mallocLogged_continues_le {fuel fuel' : ℕ} (hle : fuel ≤ fuel') (size : BitVec 64) :
    Continues (mallocLogged fuel size) (mallocLogged fuel' size) := by
  induction hle with
  | refl => exact Continues.refl _
  | step _ ih => exact ih.trans (mallocLogged_continues _ size)

/-- **A run with a value has emitted all events** that any run emits. -/
theorem mallocLogged_subset {fuel : ℕ} {size : BitVec 64} {h h' : Heap} {p : Addr}
    {es : List HeapEvent} (hrun : (mallocLogged fuel size).run h = ⟨some p, h', es⟩)
    (fuel' : ℕ) : ((mallocLogged fuel' size).run h).events ⊆ es := by
  have hmono := (mallocLogged_continues_le (le_max_left fuel fuel') size).same h p (by rw [hrun])
  have hlong := (mallocLogged_continues_le (le_max_right fuel fuel') size).events h
  rw [hmono, hrun] at hlong
  exact hlong.subset

end EtaOs
