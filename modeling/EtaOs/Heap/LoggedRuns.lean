import EtaOs.Heap.Traced

/-!
# The events of `malloc`

The runs of `malloc` with the record, on a heap that shows a list of segments.  What a run
emits is described by what holds of all its events, for any property that holds of the sizes
that are computed exactly.

The walk over the list is the same for all properties of events, so it is done once, with the
property as a parameter.

* `AcceptsExact`: the properties of events that are looked at.
* `Walk`, `scanLogged_walk`: the loop passes the segments that do not fit.
* `Splits`, `scanLogged_fits`: the segment that is handed out.
* `extendHeapLogged_run`: the extension of a heap that ends with a page.
* `mallocLogged_fits`, `mallocLogged_grows`: a request that fits, and one that does not.
-/

namespace EtaOs

open ByteMemory HeapSegHeader LinkedList Tiling Emitting Prog

/-- A property of events that holds of every size computed exactly. -/
def AcceptsExact (P : HeapEvent → Prop) : Prop := ∀ v, P (.size v v)

variable {h g : Heap} {L M R : List Segment} {s t z : Segment} {r size : BitVec 64} {a x : Addr}

/-! ## Passing a segment -/

/-- A header that is passed: it is in use, or too short. -/
theorem scanLogged_pass (hpass : ¬ (HeapSegHeader.free g.mem a = true ∧ r ≤ length g.mem a))
    (fuel : ℕ) : ∃ es, (∀ P : HeapEvent → Prop, (∀ e ∈ es, P e) ↔ P (g.access a)) ∧
      (scanLogged (fuel + 1) r a).run g =
        if next g.mem a = 0 then ⟨some none, g, es⟩
        else ⟨((scanLogged fuel r (next g.mem a)).run g).value,
          ((scanLogged fuel r (next g.mem a)).run g).state,
          es ++ ((scanLogged fuel r (next g.mem a)).run g).events⟩ := by
  rw [scanLogged]
  cases hfree : HeapSegHeader.free g.mem a with
  | true =>
      have hlt : ¬ r < length g.mem a := fun hlt => hpass ⟨hfree, by bv_omega⟩
      have hne : ¬ length g.mem a = r := fun heq => hpass ⟨hfree, by bv_omega⟩
      by_cases hnext : next g.mem a = 0
      · refine ⟨[g.access a, g.access a, g.access a, g.access a], fun P => by simp, ?_⟩
        simp only [run_bind, run_readField, hfree, hlt, hne, hnext, if_true, if_false]
        rfl
      · refine ⟨[g.access a, g.access a, g.access a, g.access a, g.access a], fun P => by simp, ?_⟩
        simp only [run_bind, run_readField, hfree, hlt, hne, hnext, if_true, if_false]
        rfl
  | false =>
      by_cases hnext : next g.mem a = 0
      · refine ⟨[g.access a, g.access a], fun P => by simp, ?_⟩
        simp only [run_bind, run_readField, hfree, hnext, if_true, if_false, Bool.false_eq_true]
        rfl
      · refine ⟨[g.access a, g.access a, g.access a], fun P => by simp, ?_⟩
        simp only [run_bind, run_readField, hfree, hnext, if_false, Bool.false_eq_true]
        rfl

/-- The header that comes first on the way to `x`. -/
def firstOf (M : List Segment) (x : Addr) : Addr := (M.map Segment.addr).headD x

/-- The headers of the list have its lengths and flags and are linked forward, up to a header
at `x`. -/
def Walk (m : Mem) : List Segment → Addr → Prop
  | [], _ => True
  | t :: M, x => length m t.addr = t.length ∧ HeapSegHeader.free m t.addr = t.free ∧
      next m t.addr = firstOf M x ∧ firstOf M x ≠ 0 ∧ Walk m M x

theorem Walk.congr {m m' : Mem} (hw : Walk m M x)
    (hsame : ∀ t ∈ M, header m' t.addr = header m t.addr) : Walk m' M x := by
  induction M with
  | nil => trivial
  | cons t M ih =>
      obtain ⟨hlen, hfree, hnext, hne, hrest⟩ := hw
      have ht := hsame t List.mem_cons_self
      refine ⟨?_, ?_, ?_, hne, ih hrest fun u hu => hsame u (List.mem_cons_of_mem t hu)⟩
      · rw [length_eq, ht, ← length_eq, hlen]
      · rw [free_eq, ht, ← free_eq, hfree]
      · rw [next_eq, ht, ← next_eq, hnext]

/-- The segments in front of one are on the way to it. -/
theorem Represents.walk (hr : Represents h (L ++ s :: R)) : Walk h.mem L s.addr := by
  have hall : ∀ L₁ M, Represents h (L₁ ++ (M ++ s :: R)) → Walk h.mem M s.addr := by
    intro L₁ M
    induction M generalizing L₁ with
    | nil => intro _; trivial
    | cons t M ih =>
        intro hr
        rw [List.cons_append] at hr
        obtain ⟨hlen, hfree⟩ := hr.fields t (by simp)
        have hbehind : behind (M ++ s :: R) = firstOf M s.addr := by cases M <;> rfl
        refine ⟨hlen, hfree, hr.next_eq_behind.trans hbehind, ?_, ih (L₁ ++ [t]) ?_⟩
        · cases M with
          | nil => exact hr.addr_ne_zero (by simp)
          | cons u M => exact hr.addr_ne_zero (by simp)
        · rwa [List.append_assoc]
  exact hall [] L hr

/-- The way starts at `heap_start`. -/
theorem Represents.firstOf_eq (hr : Represents h (L ++ s :: R)) :
    firstOf L s.addr = h.heapStart := by
  cases L with
  | nil => exact hr.head_addr
  | cons t L => exact hr.head_addr

/-- **The loop passes the segments that do not fit.** -/
theorem scanLogged_walk (hw : Walk g.mem M x) (hM : ∀ t ∈ M, ¬ t.Fits r) (fuel : ℕ) :
    ∃ es, (∀ P : HeapEvent → Prop, (∀ e ∈ es, P e) ↔ ∀ t ∈ M, P (g.access t.addr)) ∧
      (scanLogged (fuel + M.length) r (firstOf M x)).run g =
        ⟨((scanLogged fuel r x).run g).value, ((scanLogged fuel r x).run g).state,
          es ++ ((scanLogged fuel r x).run g).events⟩ := by
  induction M with
  | nil => exact ⟨[], fun P => by simp, rfl⟩
  | cons t M ih =>
      obtain ⟨hlen, hfree, hnext, hne, hrest⟩ := hw
      obtain ⟨es, hes, hrun⟩ := ih hrest fun u hu => hM u (List.mem_cons_of_mem t hu)
      have hpass : ¬ (HeapSegHeader.free g.mem t.addr = true ∧ r ≤ length g.mem t.addr) := by
        rw [hlen, hfree]
        exact hM t List.mem_cons_self
      obtain ⟨es', hes', hstep⟩ := scanLogged_pass hpass (fuel + M.length)
      refine ⟨es' ++ es, fun P => ?_, ?_⟩
      · rw [List.forall_mem_append, hes', hes, List.forall_mem_cons]
      · rw [hnext, if_neg hne, hrun] at hstep
        rw [List.append_assoc]
        exact hstep

/-! ## Handing out a segment -/

/-- A segment of `len` bytes is split for `r` bytes. -/
def Splits (r len : BitVec 64) : Prop :=
  r.toNat + 48 ≤ len.toNat ∧ len.toNat < r.toNat + 32 + 2 ^ 63

/-- The size that `split` computes: what is left behind the request and a header. -/
def remainderEvent (r len : BitVec 64) : HeapEvent :=
  .size (len - r - 32).toInt (len.toNat - r.toNat - 32)

/-- The remainder is too small, or negative as a signed number, where nothing is split. -/
theorem slt_remainder_iff_not_splits {len : BitVec 64} (hle : r ≤ len) :
    (len - r - 32).slt 0x10 ↔ ¬ Splits r len := by
  rw [slt_remainder_iff hle]
  unfold Splits
  omega

/-- **The loop hands out a header that fits.** -/
theorem scanLogged_fits (hfree : HeapSegHeader.free g.mem a = true) (hfit : r ≤ length g.mem a)
    (hr16 : ¬ r < 0x10) (fuel : ℕ) :
    ∃ g' es, (scanLogged (fuel + 1) r a).run g = ⟨some (some (a + 32)), g', es⟩ ∧
      g'.heapStart = g.heapStart ∧ g'.heapEnd = g.heapEnd ∧
      ∀ P : HeapEvent → Prop, (∀ e ∈ es, P e) ↔ P (g.access a) ∧
        (Splits r (length g.mem a) →
          P (g.access (next g.mem a)) ∧ P (g.access (a + r + 32))) ∧
        (r < length g.mem a → P (remainderEvent r (length g.mem a))) := by
  have hiff := slt_remainder_iff_not_splits hfit
  have hle : r.toNat ≤ (length g.mem a).toNat := hfit
  rw [scanLogged]
  by_cases hlt : r < length g.mem a
  · by_cases hslt : (length g.mem a - r - 32).slt 0x10
    · have hrun : (splitLogged a r).run g =
          ⟨0, g, [g.access a, remainderEvent r (length g.mem a)]⟩ := by
        unfold splitLogged
        simp only [hr16, if_false, run_bind, run_readField, run_emit, hslt, if_true]
        rfl
      refine ⟨{ g with mem := setFree g.mem a false }, [g.access a, g.access a, g.access a,
        remainderEvent r (length g.mem a), g.access a], ?_, rfl, rfl, fun P => ?_⟩
      · simp only [run_bind, run_readField, run_writeField, hfree, hlt, if_true, hrun]
        rfl
      · have hnot := hiff.mp hslt
        simp only [List.forall_mem_cons, List.not_mem_nil, false_implies, implies_true, and_true,
          hnot, hlt, forall_const, true_and]
        tauto
    · have hsplits : Splits r (length g.mem a) := not_not.mp ((not_congr hiff).mp hslt)
      obtain ⟨g₁, es, hrun, hstart, hend, hes⟩ : ∃ g₁ es,
          (splitLogged a r).run g = ⟨a + r + 32, g₁, es⟩ ∧ g₁.heapStart = g.heapStart ∧
            g₁.heapEnd = g.heapEnd ∧ ∀ P : HeapEvent → Prop, (∀ e ∈ es, P e) ↔
              P (g.access a) ∧ P (g.access (next g.mem a)) ∧ P (g.access (a + r + 32)) ∧
                P (remainderEvent r (length g.mem a)) := by
        refine ⟨(split a r g).2, [g.access a, remainderEvent r (length g.mem a), g.access a,
          g.access (next g.mem a), g.access a, g.access (a + r + 32), g.access a,
          g.access (a + r + 32), g.access (a + r + 32), g.access a, g.access (a + r + 32),
          g.access a], ?_, ?_, ?_, fun P => ?_⟩
        · unfold splitLogged split
          simp only [hr16, if_false, run_bind, run_readField, run_emit, hslt, Bool.false_eq_true]
          rfl
        · exact (split_sameHeap a r g).heapStart
        · exact (split_sameHeap a r g).heapEnd
        · simp only [List.forall_mem_cons, List.not_mem_nil, false_implies, implies_true, and_true]
          tauto
      have haccess : g₁.access a = g.access a := by
        unfold Heap.access
        rw [hstart, hend]
      refine ⟨{ g₁ with mem := setFree g₁.mem a false }, g.access a :: g.access a ::
        (es ++ [g.access a]), ?_, hstart, hend, fun P => ?_⟩
      · simp only [run_bind, run_readField, run_writeField, hfree, hlt, if_true, hrun, haccess]
        rfl
      · simp only [List.forall_mem_cons, List.forall_mem_append, hes, List.not_mem_nil,
          false_implies, implies_true, and_true, hsplits, hlt, forall_const]
        tauto
  · have heq : length g.mem a = r := by bv_omega
    have hnot : ¬ Splits r (length g.mem a) := fun hsplits => by
      have hlong := hsplits.1
      rw [heq] at hlong
      omega
    refine ⟨g, [g.access a, g.access a, g.access a, g.access a], ?_, rfl, rfl, fun P => ?_⟩
    · subst heq
      simp only [run_bind, run_readField, hfree, hlt, if_true, if_false]
      rfl
    · simp only [List.forall_mem_cons, List.not_mem_nil, false_implies, implies_true, and_true,
        hnot, hlt, and_self]

/-! ## `extend_heap` -/

/-- **The merge of the last segment**, which is free, into the one in front of it. -/
theorem combineBackwardLogged_tail {u : Segment} (hr : Represents g (L ++ z :: [u]))
    (hu : u.free = true) :
    ∃ es, (combineBackwardLogged u.addr).run g = ⟨(), combineBackward u.addr g, es⟩ ∧
      ∀ P : HeapEvent → Prop, AcceptsExact P →
        ((∀ e ∈ es, P e) ↔ P (g.access u.addr) ∧ P (g.access z.addr)) := by
  have hr' : Represents g ((L ++ [z]) ++ u :: []) := by rwa [List.append_assoc]
  have hlast : last g.mem u.addr = z.addr := by
    rw [hr'.last_eq_before]
    simp
  have hz0 : z.addr ≠ 0 := hr.addr_ne_zero (by simp)
  have hu0 : u.addr ≠ 0 := hr.addr_ne_zero (by simp)
  obtain ⟨hzlen, hzfree⟩ := hr.fields z (by simp)
  obtain ⟨hulen, hufree⟩ := hr.fields u (by simp)
  have hznext : next g.mem z.addr = u.addr := hr.next_eq_behind
  have hunext : next g.mem u.addr = 0 := hr'.next_eq_behind
  rw [hu] at hufree
  have hstate := combineBackwardLogged_spec u.addr g
  cases hfree : z.free with
  | false =>
      rw [hfree] at hzfree
      refine ⟨[g.access u.addr, g.access u.addr, g.access z.addr],
        Outcome.ext rfl hstate ?_, fun P _ => ?_⟩
      · unfold combineBackwardLogged
        simp only [run_bind, run_readField, hlast, hz0, hzfree, ne_eq, not_false_eq_true, if_true,
          if_false, Bool.false_eq_true, run_pure, List.append_nil, List.cons_append,
          List.nil_append]
      · simp only [List.forall_mem_cons, List.not_mem_nil, false_implies, implies_true, and_true]
        tauto
  | true =>
      rw [hfree] at hzfree
      have hend := g.heapEnd.isLt
      have hbound := (hr.bounds (s := u) (by simp)).2
      have htile : u.lo = z.hi := (tiles_middle.mp hr.tiles).2.2.1
      unfold Segment.lo Segment.hi at htile
      have hnat : (z.length + u.length + 32).toNat = z.length.toNat + u.length.toNat + 32 := by
        bv_omega
      have hexact : ((z.length + u.length + 32).toNat : ℤ) =
          z.length.toNat + u.length.toNat + 32 := by
        rw [hnat]
        rfl
      refine ⟨[g.access u.addr, g.access u.addr, g.access z.addr, g.access u.addr, g.access z.addr,
        g.access z.addr, g.access u.addr, g.access z.addr, g.access z.addr, g.access u.addr,
        g.access z.addr, g.access z.addr, g.access u.addr,
        .size (z.length + u.length + 32).toNat (z.length.toNat + u.length.toNat + 32),
        g.access z.addr], Outcome.ext rfl hstate ?_, fun P hP => ?_⟩
      · unfold combineBackwardLogged combineForwardLogged
        simp only [run_bind, run_readField, run_modify, run_emit, run_writeField, hlast, hz0,
          hzfree, hznext, hu0, hufree, hunext, hzlen, hulen, ne_eq, not_true_eq_false,
          not_false_eq_true, if_true, if_false, Bool.true_eq_false, List.cons_append,
          List.nil_append]
        rfl
      · have hsize := hP ((z.length + u.length + 32).toNat : ℤ)
        rw [← hexact]
        simp only [List.forall_mem_cons, List.not_mem_nil, false_implies, implies_true, and_true,
          hsize, true_and]
        tauto

/-- The rounding of `extend_heap` is exact when the rounded length fits. -/
theorem roundLogged_extend_exact {P : HeapEvent → Prop} (hP : AcceptsExact P)
    (hfit : pagesUp r.toNat < 2 ^ 64) (h : Heap) :
    ∀ e ∈ ((roundLogged 0x1000 r).run h).events, P e := by
  have hval := pageRoundUp_toNat hfit
  have hmod : (r % 0x1000).toNat = r.toNat % 4096 := BitVec.toNat_umod
  unfold pageRoundUp at hval
  unfold roundLogged
  split_ifs with hpos
  · intro e he
    obtain rfl : e = _ := List.mem_singleton.mp he
    have hne : r % 0x1000 ≠ 0 := by bv_omega
    have hpos' : 0 < r.toNat % 4096 := by
      rw [← hmod]
      exact hpos
    have hunit : (0x1000 : BitVec 64).toNat = 4096 := rfl
    have hexact : ((r - r % 0x1000 + 0x1000).toNat : ℤ) =
        r.toNat - (r % 0x1000).toNat + (0x1000 : BitVec 64).toNat := by
      rw [if_pos hne] at hval
      rw [hval, hmod, hunit]
      unfold pagesUp
      omega
    rw [hexact]
    exact hP _
  · intro e he
    exact absurd he List.not_mem_nil

/-- **An extension of a heap that ends with a page**: the header of the new segment and the last
one are accessed, and every size is exact. -/
theorem extendHeapLogged_run (hr : Represents h (L ++ [z])) (hpos : 0 < r.toNat)
    (haligned : h.heapEnd.toNat % 4096 = 0)
    (hfit : h.heapEnd.toNat + pagesUp r.toNat < 2 ^ 64) :
    ∃ es, (extendHeapLogged r).run h = ⟨(), extendHeap r h, .extend r :: es⟩ ∧
      ∀ P : HeapEvent → Prop, AcceptsExact P → ((∀ e ∈ es, P e) ↔
        P ((appendSegment r h).access h.heapEnd) ∧ P ((appendSegment r h).access z.addr)) := by
  have hpage := hr.below_pageStart (s := z) (by simp) haligned
  obtain ⟨hround, hsame⟩ := roundLogged_extend r h
  obtain ⟨happend, -⟩ := hr.appended hpos hfit hpage
  obtain ⟨es, hrun, hes⟩ := combineBackwardLogged_tail happend rfl
  have hlast : (growLoop (pageRoundUp r / 0x1000).toNat h).lastHeader = z.addr := by
    have hcount := pageCount_eq (r := r) (by omega)
    obtain ⟨-, hglast, -⟩ := growLoop_globals (h := h) (n := (pageRoundUp r / 0x1000).toNat)
      (by omega)
    rw [hglast]
    simpa using hr.lastHeader.symm
  have hlen : ((pageRoundUp r - 32).toNat : ℤ) = (pageRoundUp r).toNat - 32 := by
    have hval := pageRoundUp_toNat (r := r) (by omega)
    have hge := page_le_pagesUp hpos
    have hnat : (pageRoundUp r - 32).toNat = (pageRoundUp r).toNat - 32 := by bv_omega
    omega
  let f := (appendSegment r h).access
  refine ⟨((roundLogged 0x1000 r).run h).events ++ ([f h.heapEnd, f h.heapEnd,
    f (growLoop (pageRoundUp r / 0x1000).toNat h).lastHeader, f h.heapEnd,
    .size (pageRoundUp r - 32).toNat ((pageRoundUp r).toNat - 32), f h.heapEnd] ++ es),
      Outcome.ext rfl (extendHeapLogged_spec r h) ?_, fun P hP => ?_⟩
  · have hmerge : ((combineBackwardLogged h.heapEnd).run (appendSegment r h)).events = es := by
      rw [hrun]
    unfold extendHeapLogged
    simp only [run_bind, run_emit, run_get, run_modify, run_writeField, hround, hsame, ← hmerge]
    rfl
  · have hround := roundLogged_extend_exact hP (r := r) (by omega) h
    have hsize := hP ((pageRoundUp r - 32).toNat : ℤ)
    rw [← hlen, hlast]
    simp only [List.forall_mem_append, List.forall_mem_cons, List.not_mem_nil, false_implies,
      implies_true, and_true, hsize, true_and, hes P hP]
    tauto

/-! ## `malloc` -/

/-- The rounding of `malloc` is exact, unless it wraps to zero. -/
theorem roundLogged_exact {P : HeapEvent → Prop} (hP : AcceptsExact P) (hne : roundUp size ≠ 0)
    (h : Heap) : ∀ e ∈ ((roundLogged 0x10 size).run h).events, P e := by
  have hval := roundUp_toNat size hne
  have hmod : (size % 0x10).toNat = size.toNat % 16 := BitVec.toNat_umod
  unfold roundUp at hval
  unfold roundLogged
  split_ifs at hval ⊢ with hpos
  · intro e he
    obtain rfl : e = _ := List.mem_singleton.mp he
    have hpos' : 0 < size.toNat % 16 := by
      rw [← hmod]
      exact hpos
    have hunit : (0x10 : BitVec 64).toNat = 16 := rfl
    have hexact : ((size - size % 0x10 + 0x10).toNat : ℤ) =
        size.toNat - (size % 0x10).toNat + (0x10 : BitVec 64).toNat := by
      rw [hval, hmod, hunit]
      omega
    rw [hexact]
    exact hP _
  · intro e he
    exact absurd he List.not_mem_nil

/-- A request that is rounded to zero. -/
theorem mallocLogged_zero (h0 : roundUp size = 0) (fuel : ℕ) (h : Heap) :
    (mallocLogged (fuel + 1) size).run h =
      ⟨some 0, h, ((roundLogged 0x10 size).run h).events⟩ := by
  obtain ⟨hvalue, hstate⟩ := roundLogged_malloc size h
  rw [mallocLogged]
  simp only [run_bind, hvalue, hstate, h0, if_true, run_pure, List.append_nil]

/-- **A request that fits**: the loop passes the headers of a way and hands out the next one. -/
theorem mallocLogged_fits {fuel : ℕ} (hne : roundUp size ≠ 0) (hstart : g.heapStart = firstOf M a)
    (hw : Walk g.mem M a) (hM : ∀ t ∈ M, ¬ t.Fits (roundUp size))
    (hfree : HeapSegHeader.free g.mem a = true) (hfit : roundUp size ≤ length g.mem a)
    (hfuel : M.length < fuel) :
    ∃ g' es, (mallocLogged fuel size).run g = ⟨some (a + 32), g', es⟩ ∧
      g'.heapStart = g.heapStart ∧ g'.heapEnd = g.heapEnd ∧
      ∀ P : HeapEvent → Prop, AcceptsExact P → ((∀ e ∈ es, P e) ↔
        (∀ t ∈ M, P (g.access t.addr)) ∧ P (g.access a) ∧
        (Splits (roundUp size) (length g.mem a) →
          P (g.access (next g.mem a)) ∧ P (g.access (a + roundUp size + 32))) ∧
        (roundUp size < length g.mem a →
          P (remainderEvent (roundUp size) (length g.mem a)))) := by
  obtain ⟨k, rfl⟩ : ∃ k, fuel = k + 1 + M.length := ⟨fuel - 1 - M.length, by omega⟩
  obtain ⟨hvalue, hstate⟩ := roundLogged_malloc size g
  obtain ⟨es₁, hes₁, hwalk⟩ := scanLogged_walk hw hM (k + 1)
  obtain ⟨g', es₂, hfits, hstart', hend', hes₂⟩ :=
    scanLogged_fits hfree hfit (roundUp_not_lt hne) k
  rw [hfits, ← hstart] at hwalk
  refine ⟨g', ((roundLogged 0x10 size).run g).events ++ (es₁ ++ es₂), ?_, hstart', hend',
    fun P hP => ?_⟩
  · obtain ⟨j, hj⟩ : ∃ j, k + 1 + M.length = j + 1 := ⟨k + M.length, by omega⟩
    rw [hj] at hwalk ⊢
    rw [mallocLogged]
    simp only [run_bind, hvalue, hstate, hne, if_false, run_get, run_andThen hwalk, run_pure,
      List.append_nil, List.nil_append]
  · have hround := roundLogged_exact hP hne g
    simp only [List.forall_mem_append, hes₁, hes₂]
    tauto

/-- **The first fit** of a list is handed out. -/
theorem Represents.mallocLogged_first (hr : Represents h (L ++ s :: R)) (hne : roundUp size ≠ 0)
    (hL : ∀ t ∈ L, ¬ t.Fits (roundUp size)) (hs : s.Fits (roundUp size)) :
    ∃ h' es, (mallocLogged (L.length + 1) size).run h = ⟨some (s.addr + 32), h', es⟩ ∧
      h'.heapStart = h.heapStart ∧ h'.heapEnd = h.heapEnd ∧
      ∀ P : HeapEvent → Prop, AcceptsExact P → ((∀ e ∈ es, P e) ↔
        (∀ t ∈ L, P (h.access t.addr)) ∧ P (h.access s.addr) ∧
        (Splits (roundUp size) s.length →
          P (h.access (behind R)) ∧ P (h.access (s.addr + roundUp size + 32))) ∧
        (roundUp size < s.length → P (remainderEvent (roundUp size) s.length))) := by
  obtain ⟨hlen, hfree⟩ := hr.fields s (by simp)
  have hrun := mallocLogged_fits hne hr.firstOf_eq.symm hr.walk hL (hfree.trans hs.1)
    (hlen ▸ hs.2) (Nat.lt_succ_self L.length)
  rwa [hlen, hr.next_eq_behind] at hrun

/-- **A request that does not fit**: the loop passes all segments, and the heap is extended. -/
theorem mallocLogged_grows {fuel : ℕ} (hr : Represents h (L ++ [z])) (hne : roundUp size ≠ 0)
    (hnone : ∀ t ∈ L ++ [z], ¬ t.Fits (roundUp size)) (hfuel : L.length ≤ fuel) :
    ∃ es, (∀ P : HeapEvent → Prop, AcceptsExact P → ((∀ e ∈ es, P e) ↔
        ∀ t ∈ L ++ [z], P (h.access t.addr))) ∧
      (mallocLogged (fuel + 1) size).run h =
        ⟨((mallocLogged fuel (roundUp size)).run (extendHeap (roundUp size) h)).value,
          ((mallocLogged fuel (roundUp size)).run (extendHeap (roundUp size) h)).state,
          es ++ (((extendHeapLogged (roundUp size)).run h).events ++
            ((mallocLogged fuel (roundUp size)).run (extendHeap (roundUp size) h)).events)⟩ := by
  obtain ⟨k, hk⟩ : ∃ k, fuel + 1 = k + 1 + L.length := ⟨fuel - L.length, by omega⟩
  obtain ⟨hvalue, hstate⟩ := roundLogged_malloc size h
  obtain ⟨es₁, hes₁, hwalk⟩ := scanLogged_walk hr.walk
    (fun t ht => hnone t (List.mem_append_left _ ht)) (k + 1)
  obtain ⟨hlen, hfree⟩ := hr.fields z (by simp)
  have hpass : ¬ (HeapSegHeader.free h.mem z.addr = true ∧ roundUp size ≤ length h.mem z.addr) := by
    rw [hlen, hfree]
    exact hnone z (by simp)
  obtain ⟨es₂, hes₂, hlast⟩ := scanLogged_pass hpass k
  have hnext : next h.mem z.addr = 0 := hr.next_eq_behind
  rw [if_pos hnext] at hlast
  rw [hlast, hr.firstOf_eq, ← hk] at hwalk
  refine ⟨((roundLogged 0x10 size).run h).events ++ (es₁ ++ es₂), fun P hP => ?_, ?_⟩
  · have hround := roundLogged_exact hP hne h
    simp only [List.forall_mem_append, hes₁, hes₂, List.forall_mem_singleton]
    tauto
  · rw [mallocLogged]
    simp only [run_bind, hvalue, hstate, hne, if_false, run_get, run_andThen hwalk,
      extendHeapLogged_spec, List.append_assoc, List.nil_append]

end EtaOs
