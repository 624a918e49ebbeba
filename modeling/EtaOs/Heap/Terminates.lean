import EtaOs.Heap.Growth

/-!
# `malloc` terminates

The loop of `malloc` walks a list of segments and ends with it, and the call of `malloc` after
an extension finds a segment that fits, or does so after one more extension.  This needs a heap
that ends with a page: an extension maps the page of `heap_end`, and when headers lie in that
page, the loop goes on in whatever the new frame contains.

`malloc` is recursive through `extend_heap` and loops over links in memory, so termination is no
matter of a counter.  It is proved as totality: some fuel gives a result, for every request.

* `malloc_terminates`: `malloc` returns, and calls `extend_heap` at most twice.
* `loopHeap`, `not_malloc_terminates`: a heap that ends inside a page, and a frame in which the
  loop never ends.
-/

namespace EtaOs

open ByteMemory HeapSegHeader LinkedList Tiling Emitting Prog

variable {h : Heap} {L : List Segment} {z : Segment} {size : BitVec 64}

/-- `malloc` returns, and has called `extend_heap` at most twice. -/
def Terminates (h : Heap) (size : BitVec 64) : Prop :=
  ∃ fuel p h', malloc fuel size h = some (p, h') ∧
    extensions ((mallocLogged fuel size).run h).events ≤ 2

/-- A run with the record that has a value. -/
theorem Terminates.of_run {fuel : ℕ} {p : Addr} {h' : Heap} {es : List HeapEvent}
    (hrun : (mallocLogged fuel size).run h = ⟨some p, h', es⟩) (hes : extensions es ≤ 2) :
    Terminates h size :=
  ⟨fuel, p, h', malloc_of_logged hrun, by rw [hrun]; exact hes⟩

/-- The rounding of a size does not call `extend_heap`. -/
theorem roundLogged_extensions (unit size : BitVec 64) (h : Heap) :
    extensions ((roundLogged unit size).run h).events = 0 := by
  unfold roundLogged
  split_ifs <;> rfl

/-- **`malloc` terminates** on every heap that shows a list of segments, for every size that
leaves room for the rounding, when a heap that has to grow ends with a page and has room. -/
theorem malloc_terminates (hr : Represents h (L ++ [z])) (hsize : size.toNat ≤ 2 ^ 64 - 8192)
    (hgrow : NeedsExtension (L ++ [z]) (roundUp size) → Extendable h z (roundUp size)) :
    Terminates h size := by
  rcases request_cases (L ++ [z]) (roundUp size) with h0 | ⟨s, hne, L', R, heq, hL, hs⟩ | hneeds
  · have hrun := mallocLogged_zero h0 0 h
    exact Terminates.of_run hrun (by rw [roundLogged_extensions]; omega)
  · rw [heq] at hr
    obtain ⟨h', es, hrun, -, -, hes⟩ := hr.mallocLogged_first hne hL hs
    have hzero : extensions es = 0 := extensions_eq_zero
      ((hes _ acceptsExact_not_isExtend).mpr
        ⟨fun _ _ => rfl, rfl, fun _ => ⟨rfl, rfl⟩, fun _ => rfl⟩)
    exact Terminates.of_run hrun (by omega)
  · have hround := roundUp_toNat size hneeds.1
    obtain ⟨fuel, p, h', es, hrun, -, hcount, -⟩ :=
      mallocLogged_extended hr hneeds (hgrow hneeds) (by omega)
    exact Terminates.of_run hrun hcount

/-- A request that extends a new heap of one page. -/
theorem malloc_terminates_page : Terminates (initHeap 0x100000000000 1 default) 8192 := by
  have hr := represents_onePage
  exact malloc_terminates (L := []) hr (by decide) fun _ => ⟨by decide, by decide, by decide⟩

/-! ## A heap that ends inside a page -/

/-- A header that is in use and its own successor keeps the loop of `malloc` forever. -/
theorem scan_loops {a : Addr} {r : BitVec 64} (ha : a ≠ 0) (hnext : next h.mem a = a)
    (hfree : HeapSegHeader.free h.mem a = false) (fuel : ℕ) : scan fuel r a h = none := by
  induction fuel with
  | zero => rfl
  | succ fuel ih =>
      rw [scan, hfree, hnext, if_neg (fun hc => absurd hc.1 (by decide)),
        if_neg (fun hc => absurd hc.1 (by decide)), if_neg ha]
      exact ih

/-- A frame with a header in use at the start of the heap that is its own successor. -/
def loopFrame : Mem := setNext (fun _ => 0) 0x100000 0x100000

/-- Two segments in use of 32 bytes each, in a heap that ends behind them. -/
def loopHeap : Heap where
  mem := setLast (setLength (setNext (setLength (fun _ => 0) 0x100000 32) 0x100000 0x100040)
    0x100040 32) 0x100040 0x100000
  fresh := fun _ => loopFrame
  taken := 0
  heapStart := 0x100000
  heapEnd := 0x100080
  lastHeader := 0x100040

theorem header_zero (a : Addr) : header (fun _ => 0) a = ⟨0, 0, 0, false⟩ := by
  have hword : ∀ b : Addr, load64 (fun _ => 0) b = 0 := by
    intro b
    show (0 : BitVec 8) ++ (0 : BitVec 8) ++ (0 : BitVec 8) ++ (0 : BitVec 8) ++
      (0 : BitVec 8) ++ (0 : BitVec 8) ++ (0 : BitVec 8) ++ (0 : BitVec 8) = (0 : BitVec 64)
    decide
  ext1
  · exact hword a
  · exact hword (a + 8)
  · exact hword (a + 16)
  · rfl

theorem represents_loopHeap :
    Represents loopHeap ([⟨0x100000, 32, false⟩] ++ [⟨0x100040, 32, false⟩]) := by
  have hab : Apart (0x100000 : Addr) 32 0x100040 32 := ⟨by decide, by decide⟩
  have hA : header loopHeap.mem 0x100000 = ⟨32, 0x100040, 0, false⟩ := by
    unfold loopHeap
    simp only [header_setLast (apart_lastField hab.symm), header_setLength hab.symm,
      header_setNext_self, header_setLength_self, header_zero]
  have hB : header loopHeap.mem 0x100040 = ⟨32, 0, 0x100000, false⟩ := by
    unfold loopHeap
    simp only [header_setLast_self, header_setLength_self, header_setNext hab,
      header_setLength hab, header_zero]
  refine ⟨?_, ?_, ?_, rfl, by decide⟩
  · exact ⟨congrArg Header.last hA, congrArg Header.next hA, congrArg Header.last hB,
      congrArg Header.next hB, trivial⟩
  · intro s hs
    have hcases : s = ⟨0x100000, 32, false⟩ ∨ s = ⟨0x100040, 32, false⟩ := by simpa using hs
    rcases hcases with rfl | rfl
    · exact ⟨congrArg Header.length hA, congrArg Header.free hA⟩
    · exact ⟨congrArg Header.length hB, congrArg Header.free hB⟩
  · exact ⟨rfl, by decide, rfl, by decide, rfl⟩

/-- The extension replaces the page with the headers by the frame. -/
theorem header_loopHeap_grown {x : Addr} (hlo : 0x100000 ≤ x.toNat)
    (hhi : x.toNat + 32 ≤ 0x101000) :
    header (growLoop 1 loopHeap).mem x = header loopFrame x := by
  refine header_congr fun y hy => ?_
  have hpage : y.extractLsb' 12 52 = (0x100080 : Addr).extractLsb' 12 52 := by
    rw [page_eq_iff]
    show y.toNat / 4096 = 0x100080 / 4096
    have hy' : y.toNat = x.toNat + (y - x).toNat := by bv_omega
    omega
  exact if_pos hpage

theorem extendHeap_loopHeap : next (extendHeap 16 loopHeap).mem 0x100000 = 0x100000 ∧
    HeapSegHeader.free (extendHeap 16 loopHeap).mem 0x100000 = false ∧
    (extendHeap 16 loopHeap).heapStart = 0x100000 := by
  have hab : Apart (0x100040 : Addr) 32 0x100000 32 := ⟨by decide, by decide⟩
  have hA : header loopFrame 0x100000 = ⟨0, 0x100000, 0, false⟩ := by
    unfold loopFrame
    rw [header_setNext_self, header_zero]
  have hB : header loopFrame 0x100040 = ⟨0, 0, 0, false⟩ := by
    unfold loopFrame
    rw [header_setNext hab.symm, header_zero]
  obtain ⟨hlast, hnew, hother⟩ := header_extend (m := (growLoop 1 loopHeap).mem) (z := 0x100040)
    (b := 0x100080) ⟨by decide, by decide⟩ 4064
  have hstart := hother 0x100000 hab ⟨by decide, by decide⟩
  rw [header_loopHeap_grown (by decide) (by decide)] at hlast hstart
  rw [hB] at hlast
  rw [hA] at hstart
  have hmerge : extendHeap 16 loopHeap = linkedLast 0x100080 0x1000 (growLoop 1 loopHeap) := by
    show combineBackward 0x100080 (linkedLast 0x100080 0x1000 (growLoop 1 loopHeap)) = _
    unfold combineBackward
    have hback : last (linkedLast 0x100080 0x1000 (growLoop 1 loopHeap)).mem 0x100080 =
        0x100040 := congrArg Header.last hnew
    have hused : HeapSegHeader.free (linkedLast 0x100080 0x1000 (growLoop 1 loopHeap)).mem
        0x100040 = false := congrArg Header.free hlast
    rw [hback, hused]
    exact if_neg fun hc => absurd hc.2 (by decide)
  rw [hmerge]
  exact ⟨congrArg Header.next hstart, congrArg Header.free hstart, rfl⟩

/-- **The loop of `malloc` never ends** in the frame that replaces the headers, although the heap
shows a list of segments and has room. -/
theorem not_malloc_terminates : ¬ ∀ (h : Heap) (L : List Segment) (z : Segment)
    (size : BitVec 64), Represents h (L ++ [z]) → size.toNat ≤ 2 ^ 64 - 8192 →
      h.heapEnd.toNat + 2 * (pageRoundUp (roundUp size)).toNat < 2 ^ 64 → Terminates h size := by
  intro hall
  obtain ⟨fuel, p, h', hmalloc, -⟩ :=
    hall loopHeap _ _ 16 represents_loopHeap (by decide) (by decide)
  obtain ⟨hnext, hfree, hstart⟩ := extendHeap_loopHeap
  have hloop : ∀ k, malloc k 16 (extendHeap 16 loopHeap) = none := by
    intro k
    cases k with
    | zero => rfl
    | succ k =>
        have hscan := scan_loops (r := roundUp 16) (by decide) hnext hfree (k + 1)
        rw [malloc, if_neg (by decide), hstart, hscan]
  -- enough fuel for the loop to walk the list
  have hmalloc' := malloc_mono_le (Nat.le_add_right fuel 2) hmalloc
  have hscan := scan_none (r := roundUp 16) represents_loopHeap (by decide)
    (show 1 < fuel + 2 by omega)
  have hround : roundUp 16 = 16 := by decide
  rw [malloc, if_neg (by decide), hscan] at hmalloc'
  simp only [hround, hloop] at hmalloc'
  exact absurd hmalloc' (by simp)

end EtaOs
