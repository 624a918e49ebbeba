import EtaOs.Heap.Methods

/-!
# `malloc` on the list of segments

`malloc` hands out the first free segment that is long enough, and extends the heap when
there is none.  On the list of segments it replaces the segment by what is left of it.

The loop and the recursive call behind an extension share their fuel, which is the number of
headers that may still be visited.  `malloc_mono` makes the amount irrelevant, so results can be
combined that were obtained with different amounts.

* `Segment.Fits`, `allot`, `Allots`: the segment handed out, and the list afterwards.
* `scan_of_fits`, `scan_of_not_fits`: the loop finds the first fit or runs off the end.
* `CanGrow`: the extensions of the heap that merge nothing and are large enough.
* `malloc_spec`: the result of `malloc` on the list.
* `malloc_mono`: more fuel gives the same result.
-/

namespace EtaOs

open ByteMemory HeapSegHeader LinkedList Tiling

/-- A segment that the loop of `malloc` hands out. -/
def Segment.Fits (r : BitVec 64) (s : Segment) : Prop :=
  s.free = true ∧ r ≤ s.length

instance (r : BitVec 64) (s : Segment) : Decidable (s.Fits r) :=
  inferInstanceAs (Decidable (_ ∧ _))

/-- The remainder of a segment as `split` keeps it, in an `int64_t`. -/
theorem toInt_remainder {r len : BitVec 64} (hle : r ≤ len) :
    (len - r - 32).toInt = if len.toNat < r.toNat + 32 + 2 ^ 63 then
      (len.toNat : ℤ) - r.toNat - 32 else (len.toNat : ℤ) - r.toNat - 32 - 2 ^ 64 := by
  have hle' : r.toNat ≤ len.toNat := hle
  have hlt := len.isLt
  rw [BitVec.toInt_eq_toNat_cond]
  rcases Nat.lt_or_ge len.toNat (r.toNat + 32) with hsmall | hlarge
  · have hrem : (len - r - 32).toNat = 2 ^ 64 + len.toNat - r.toNat - 32 := by bv_omega
    rw [hrem]
    split_ifs <;> omega
  · have hrem : (len - r - 32).toNat = len.toNat - r.toNat - 32 := by bv_omega
    rw [hrem]
    split_ifs <;> omega

/-- The remainder is split off when it has room for a header and a payload, and its length is
not negative as a signed number. -/
theorem slt_remainder_iff {r len : BitVec 64} (hle : r ≤ len) :
    (len - r - 32).slt 0x10 ↔
      len.toNat < r.toNat + 48 ∨ r.toNat + 32 + 2 ^ 63 ≤ len.toNat := by
  have hle' : r.toNat ≤ len.toNat := hle
  have hlt := len.isLt
  have h16 : (0x10 : BitVec 64).toInt = 16 := rfl
  rw [BitVec.slt_iff_toInt_lt, toInt_remainder hle, h16]
  split_ifs <;> omega

/-- What a segment becomes when `r` bytes of it are handed out.  After an exact fit its
flag still says that it is free. -/
def allot (r : BitVec 64) (s : Segment) : List Segment :=
  if s.length = r then [s]
  else if (s.length - r - 32).slt 0x10 then [{ s with free := false }]
  else [⟨s.addr, r, false⟩, ⟨s.addr + r + 32, s.length - r - 32, true⟩]

/-- **The first fit is handed out.**  From a list of segments a request of `r` bytes gets
a payload and leaves a list. -/
inductive Allots (r : BitVec 64) : List Segment → Addr → List Segment → Prop
  | mk (L R : List Segment) (s : Segment) (hL : ∀ t ∈ L, ¬ t.Fits r) (hs : s.Fits r) :
      Allots r (L ++ s :: R) (s.addr + 32) (L ++ allot r s ++ R)

variable {h : Heap} {segs L R : List Segment} {s : Segment} {r : BitVec 64}

/-! ## The loop -/

/-- A segment that is split has room for the request, a header and the smallest payload. -/
theorem room_of_not_slt {len : BitVec 64} (hle : r ≤ len) (hpos : ¬ (len - r - 32).slt 0x10) :
    r.toNat + 48 ≤ len.toNat := by
  have hnot := (not_congr (slt_remainder_iff hle)).mp hpos
  omega

/-- **The segment handed out.**  The loop returns the payload of a segment that fits, and
the list has what is left of it.  After an exact fit nothing has changed. -/
theorem scan_of_fits (hr : Represents h (L ++ s :: R)) (hs : s.Fits r) (hr16 : ¬ r < 0x10)
    (fuel : ℕ) :
    ∃ h', scan (fuel + 1) r s.addr h = some (some (s.addr + 32), h') ∧
      Represents h' (L ++ allot r s ++ R) ∧ h'.heapEnd = h.heapEnd ∧ (s.length = r → h' = h) := by
  obtain ⟨hfree, hle⟩ := hs
  obtain ⟨hlen, hfr⟩ := hr.fields s (by simp)
  unfold scan
  rw [hfr, hlen, hfree]
  unfold allot
  by_cases heq : s.length = r
  · have hnlt : ¬ r < s.length := by bv_omega
    refine ⟨h, ?_, ?_, rfl, fun _ => rfl⟩
    · rw [if_neg fun hc => hnlt hc.2, if_pos ⟨rfl, heq⟩]
    · rw [if_pos heq, List.append_assoc]
      exact hr
  · have hlt : r < s.length := by bv_omega
    refine ⟨_, if_pos ⟨rfl, hlt⟩, ?_⟩
    rw [if_neg heq]
    by_cases hpos : (s.length - r - 32).slt 0x10
    · rw [split_null (Or.inr (hlen ▸ hpos)), if_pos hpos, List.append_assoc]
      exact ⟨hr.setFree false, rfl, fun hexact => absurd hexact heq⟩
    · have hsplit := hr.split hr16 (room_of_not_slt hle hpos) hpos
      rw [if_neg hpos, List.append_assoc]
      rw [hfree] at hsplit
      exact ⟨hsplit.setFree false, (split_sameHeap s.addr r h).heapEnd,
        fun hexact => absurd hexact heq⟩

/-- A segment that does not fit is passed over. -/
theorem scan_of_not_fits (hr : Represents h (L ++ s :: R)) (hs : ¬ s.Fits r) (fuel : ℕ) :
    scan (fuel + 1) r s.addr h =
      if behind R = 0 then some (none, h) else scan fuel r (behind R) h := by
  obtain ⟨hlen, hfr⟩ := hr.fields s (by simp)
  have hgt : ¬ (s.free = true ∧ r < s.length) := fun hfit => hs ⟨hfit.1, by bv_omega⟩
  have heq : ¬ (s.free = true ∧ s.length = r) := fun hfit => hs ⟨hfit.1, by bv_omega⟩
  rw [scan, hfr, hlen, hr.next_eq_behind, if_neg hgt, if_neg heq]

/-- The loop walks over segments that do not fit. -/
theorem scan_append {M : List Segment} {x : Segment} (hr : Represents h (L ++ (M ++ x :: R)))
    (hM : ∀ t ∈ M, ¬ t.Fits r) (fuel : ℕ) :
    scan (fuel + M.length) r (behind (M ++ x :: R)) h = scan fuel r x.addr h := by
  induction M generalizing L with
  | nil => rfl
  | cons t M ih =>
      rw [List.cons_append] at hr ⊢
      have hne : behind (M ++ x :: R) ≠ 0 := by
        cases M with
        | nil => exact hr.addr_ne_zero (by simp)
        | cons u M => exact hr.addr_ne_zero (by simp)
      have hstep := scan_of_not_fits hr (hM t List.mem_cons_self) (fuel + M.length)
      rw [if_neg hne] at hstep
      refine hstep.trans (ih (L := L ++ [t]) ?_ fun u hu => hM u (List.mem_cons_of_mem t hu))
      rwa [List.append_assoc]

/-- The loop starts at the first segment. -/
theorem Represents.behind_eq (hr : Represents h (s :: segs)) : behind (s :: segs) = h.heapStart :=
  hr.head_addr

/-- **The loop finds the first fit.** -/
theorem scan_first (hr : Represents h (L ++ s :: R)) (hL : ∀ t ∈ L, ¬ t.Fits r)
    (hs : s.Fits r) (hr16 : ¬ r < 0x10) {fuel : ℕ} (hfuel : L.length < fuel) :
    ∃ h', scan fuel r h.heapStart h = some (some (s.addr + 32), h') ∧
      Represents h' (L ++ allot r s ++ R) ∧ h'.heapEnd = h.heapEnd ∧ (s.length = r → h' = h) := by
  obtain ⟨k, rfl⟩ : ∃ k, fuel = k + 1 + L.length := ⟨fuel - 1 - L.length, by omega⟩
  have hstart : h.heapStart = behind (L ++ s :: R) := by
    cases L with
    | nil => exact hr.behind_eq.symm
    | cons t L => exact hr.behind_eq.symm
  rw [hstart, scan_append (L := []) hr hL]
  exact scan_of_fits hr hs hr16 k

/-- The loop runs off the end when nothing fits. -/
theorem scan_none (hr : Represents h (L ++ [s])) (hnone : ∀ t ∈ L ++ [s], ¬ t.Fits r) {fuel : ℕ}
    (hfuel : L.length < fuel) : scan fuel r h.heapStart h = some (none, h) := by
  obtain ⟨k, rfl⟩ : ∃ k, fuel = k + 1 + L.length := ⟨fuel - 1 - L.length, by omega⟩
  have hstart : h.heapStart = behind (L ++ [s]) := by
    cases L with
    | nil => exact hr.behind_eq.symm
    | cons t L => exact hr.behind_eq.symm
  rw [hstart, scan_append (L := []) hr fun t ht => hnone t (List.mem_append_left _ ht),
    scan_of_not_fits hr (hnone s (by simp))]
  exact if_pos rfl

/-! ## `malloc` -/

/-- A request is rounded up to at least 16 bytes, or wraps to zero. -/
theorem roundUp_toNat (size : BitVec 64) (hne : roundUp size ≠ 0) :
    (roundUp size).toNat = (size.toNat + 15) / 16 * 16 := by
  have hmod : (size % 0x10).toNat = size.toNat % 16 := BitVec.toNat_umod
  have hlt := size.isLt
  unfold roundUp at hne ⊢
  split_ifs at hne ⊢ with hpos
  · have hpos' : 0 < size.toNat % 16 := by
      rw [← hmod]
      exact hpos
    have hunit : (0x10 : BitVec 64).toNat = 16 := rfl
    have hval : (size - size % 0x10 + 0x10).toNat =
        (size.toNat - size.toNat % 16 + 16) % 2 ^ 64 := by
      rw [BitVec.toNat_add, BitVec.toNat_sub, hmod, hunit]
      omega
    have hne' : (size - size % 0x10 + 0x10).toNat ≠ 0 := fun h0 =>
      hne (BitVec.eq_of_toNat_eq h0)
    omega
  · have hpos' : size.toNat % 16 = 0 := by
      by_contra h0
      refine hpos ?_
      show 0 < (size % 0x10).toNat
      omega
    omega

theorem roundUp_not_lt {size : BitVec 64} (hne : roundUp size ≠ 0) : ¬ roundUp size < 0x10 := by
  have hval := roundUp_toNat size hne
  have hpos : (roundUp size).toNat ≠ 0 := fun h0 => hne (BitVec.eq_of_toNat_eq h0)
  intro hlt
  have hlt' : (roundUp size).toNat < 16 := hlt
  omega

theorem roundUp_pos {size : BitVec 64} (hne : roundUp size ≠ 0) : 0 < (roundUp size).toNat := by
  have hnlt := roundUp_not_lt hne
  bv_omega

theorem le_roundUp {size : BitVec 64} (hne : roundUp size ≠ 0) : size ≤ roundUp size := by
  have hval := roundUp_toNat size hne
  show size.toNat ≤ (roundUp size).toNat
  omega

/-- A rounded request is not rounded again. -/
theorem roundUp_roundUp (size : BitVec 64) : roundUp (roundUp size) = roundUp size := by
  by_cases hne : roundUp size = 0
  · rw [hne]
    rfl
  · have hval := roundUp_toNat size hne
    have hmod : (roundUp size % 0x10).toNat = (roundUp size).toNat % 16 := BitVec.toNat_umod
    generalize roundUp size = r at *
    unfold roundUp
    refine if_neg fun hpos => ?_
    have hpos' : 0 < (r % 0x10).toNat := hpos
    omega

/-- **An extension that merges nothing and is large enough**: the last segment is in use,
the heap stays in the address space, and the new pages have room for a header and the
request. -/
structure CanGrow (h : Heap) (r : BitVec 64) : Prop where
  inUse : HeapSegHeader.free h.mem h.lastHeader = false
  space : h.heapEnd.toNat + pagesUp r.toNat < 2 ^ 64
  room : r.toNat + 32 ≤ pagesUp r.toNat

/-- The last header lies below the page of `heap_end`, which the extension maps. -/
def BelowEnd (h : Heap) : Prop := h.lastHeader.toNat + 32 ≤ pageStart h.heapEnd

/-- The segment that an extension adds. -/
def grown (h : Heap) (r : BitVec 64) : Segment :=
  ⟨h.heapEnd, BitVec.ofNat 64 (pagesUp r.toNat - 32), true⟩

theorem grown_length (hg : CanGrow h r) :
    (grown h r).length.toNat + 32 = pagesUp r.toNat := by
  have hroom := hg.room
  have hspace := hg.space
  show (BitVec.ofNat 64 (pagesUp r.toNat - 32)).toNat + 32 = pagesUp r.toNat
  rw [BitVec.toNat_ofNat, Nat.mod_eq_of_lt (by omega)]
  omega

theorem grown_fits (hg : CanGrow h r) : (grown h r).Fits r := by
  have hlen := grown_length hg
  have hroom := hg.room
  refine ⟨rfl, ?_⟩
  show r.toNat ≤ (grown h r).length.toNat
  omega

theorem malloc_zero {size : BitVec 64} (h0 : roundUp size = 0) (fuel : ℕ) (h : Heap) :
    malloc (fuel + 1) size h = some (0, h) :=
  if_pos h0

/-- **A request that fits.** -/
theorem malloc_first (size : BitVec 64) (fuel : ℕ) (hr : Represents h (L ++ s :: R))
    (hne : roundUp size ≠ 0) (hL : ∀ t ∈ L, ¬ t.Fits (roundUp size)) (hs : s.Fits (roundUp size))
    (hfuel : L.length < fuel) :
    ∃ h', malloc fuel size h = some (s.addr + 32, h') ∧
      Represents h' (L ++ allot (roundUp size) s ++ R) ∧ h'.heapEnd = h.heapEnd ∧
        (s.length = roundUp size → h' = h) := by
  obtain ⟨k, rfl⟩ : ∃ k, fuel = k + 1 := ⟨fuel - 1, by omega⟩
  obtain ⟨h', hscan, hrest⟩ := scan_first hr hL hs (roundUp_not_lt hne) hfuel
  refine ⟨h', ?_, hrest⟩
  rw [malloc, if_neg hne, hscan]

/-- The end of the heap moves by whole pages. -/
theorem Represents.heapEnd_extend (hr : Represents (extendHeap r h) (segs ++ grown h r :: []))
    (hg : CanGrow h r) : (extendHeap r h).heapEnd.toNat = h.heapEnd.toNat + pagesUp r.toNat := by
  have hend : (grown h r).hi = (extendHeap r h).heapEnd.toNat := (tiles_middle.mp hr.tiles).2.2
  have hlen := grown_length hg
  rw [← hend]
  show h.heapEnd.toNat + 32 + (grown h r).length.toNat = h.heapEnd.toNat + pagesUp r.toNat
  omega

/-- **A request that extends the heap.** -/
theorem malloc_grow {size : BitVec 64} (hr : Represents h (L ++ [s])) (hne : roundUp size ≠ 0)
    (hnone : ∀ t ∈ L ++ [s], ¬ t.Fits (roundUp size)) (hg : CanGrow h (roundUp size))
    (hbelow : BelowEnd h) {fuel : ℕ} (hfuel : L.length + 2 < fuel) :
    ∃ h', malloc fuel size h = some (h.heapEnd + 32, h') ∧
      Represents h' (L ++ [s] ++ allot (roundUp size) (grown h (roundUp size)) ++ []) ∧
      h'.heapEnd.toNat = h.heapEnd.toNat + pagesUp (roundUp size).toNat := by
  obtain ⟨k, rfl⟩ : ∃ k, fuel = k + 1 := ⟨fuel - 1, by omega⟩
  have hls : h.lastHeader = s.addr := by simpa using hr.lastHeader.symm
  have hused : s.free = false := by
    rw [← (hr.fields s (by simp)).2, ← hls]
    exact hg.inUse
  have hext := hr.extend hused (roundUp_pos hne) hg.space (hls ▸ hbelow)
  have hext' : Represents (extendHeap (roundUp size) h)
      ((L ++ [s]) ++ grown h (roundUp size) :: []) := by
    rw [List.append_assoc]
    exact hext
  rw [malloc, if_neg hne, scan_none hr hnone (by omega)]
  have hlen : (L ++ [s]).length < k := by
    rw [List.length_append, List.length_singleton]
    omega
  have hround := roundUp_roundUp size
  obtain ⟨h', hmalloc, hrep, hend, -⟩ := malloc_first _ k hext' (hround.symm ▸ hne)
    (hround.symm ▸ hnone) (hround.symm ▸ grown_fits hg) hlen
  rw [hround] at hrep
  exact ⟨h', hmalloc, hrep, by rw [hend, hext'.heapEnd_extend hg]⟩

/-! ## Fuel -/

theorem scan_mono {x : Option Addr × Heap} : ∀ {fuel : ℕ} {a : Addr},
    scan fuel r a h = some x → scan (fuel + 1) r a h = some x := by
  intro fuel
  induction fuel with
  | zero =>
      intro _ hscan
      exact absurd hscan (by simp [scan])
  | succ fuel ih =>
      intro a hscan
      rw [scan] at hscan ⊢
      split_ifs at hscan ⊢
      · exact hscan
      · exact hscan
      · exact hscan
      · exact ih hscan

/-- **More fuel gives the same result.** -/
theorem malloc_mono {x : Addr × Heap} : ∀ {fuel : ℕ} {size : BitVec 64} {h : Heap},
    malloc fuel size h = some x → malloc (fuel + 1) size h = some x := by
  intro fuel
  induction fuel with
  | zero =>
      intro _ _ hmalloc
      exact absurd hmalloc (by simp [malloc])
  | succ fuel ih =>
      intro size h hmalloc
      rw [malloc] at hmalloc ⊢
      split_ifs at hmalloc ⊢ with h0
      · exact hmalloc
      · cases hscan : scan (fuel + 1) (roundUp size) h.heapStart h with
        | none => rw [hscan] at hmalloc; exact absurd hmalloc (by simp)
        | some y =>
            rw [hscan] at hmalloc
            rw [scan_mono hscan]
            rcases y with ⟨p | p, h'⟩
            · exact ih hmalloc
            · exact hmalloc

theorem malloc_mono_le {x : Addr × Heap} {fuel fuel' : ℕ} {size : BitVec 64} (hle : fuel ≤ fuel')
    (hmalloc : malloc fuel size h = some x) : malloc fuel' size h = some x := by
  induction hle with
  | refl => exact hmalloc
  | step _ ih => exact malloc_mono ih

/-- The result does not depend on the fuel. -/
theorem malloc_unique {x y : Addr × Heap} {fuel fuel' : ℕ} {size : BitVec 64}
    (hx : malloc fuel size h = some x) (hy : malloc fuel' size h = some y) : x = y := by
  have hx' := malloc_mono_le (le_max_left fuel fuel') hx
  have hy' := malloc_mono_le (le_max_right fuel fuel') hy
  exact Option.some.inj (hx'.symm.trans hy')

/-! ## The result on the list -/

/-- The first segment that fits, and those in front of it. -/
theorem exists_first_fit (hfit : ∃ t ∈ segs, t.Fits r) :
    ∃ L s R, segs = L ++ s :: R ∧ (∀ t ∈ L, ¬ t.Fits r) ∧ s.Fits r := by
  have hsome : (segs.find? fun t => decide (t.Fits r)).isSome := by
    rw [List.find?_isSome]
    obtain ⟨t, ht, hfits⟩ := hfit
    exact ⟨t, ht, decide_eq_true hfits⟩
  obtain ⟨s, hs⟩ := Option.isSome_iff_exists.mp hsome
  obtain ⟨hfits, L, R, rfl, hL⟩ := List.find?_eq_some_iff_append.mp hs
  exact ⟨L, s, R, rfl, fun t ht => by simpa using hL t ht, of_decide_eq_true hfits⟩

/-- The list has a last segment. -/
theorem Represents.exists_last (hr : Represents h segs) : ∃ L s, segs = L ++ [s] := by
  rcases List.eq_nil_or_concat segs with rfl | ⟨L, s, rfl⟩
  · exact absurd hr.lastHeader (by simp)
  · exact ⟨L, s, List.concat_eq_append⟩

/-- What a request finds on the list: a segment that fits, or room to extend the heap. -/
def Served (h : Heap) (segs : List Segment) (r : BitVec 64) : Prop :=
  (∃ t ∈ segs, t.Fits r) ∨ CanGrow h r ∧ BelowEnd h

/-- **`malloc` on the list of segments.**  With enough fuel it returns the payload of the
first fit, or of the extension. -/
theorem malloc_spec {size : BitVec 64} (hr : Represents h segs) (hne : roundUp size ≠ 0)
    (hserved : Served h segs (roundUp size)) :
    ∃ p h' segs', (∀ fuel, segs.length + 2 ≤ fuel → malloc fuel size h = some (p, h')) ∧
      Represents h' segs' ∧ h'.heapEnd.toNat % 4096 = h.heapEnd.toNat % 4096 ∧
      (Allots (roundUp size) segs p segs' ∨
        (∀ t ∈ segs, ¬ t.Fits (roundUp size)) ∧ CanGrow h (roundUp size) ∧
          Allots (roundUp size) (segs ++ [grown h (roundUp size)]) p segs') := by
  by_cases hfit : ∃ t ∈ segs, t.Fits (roundUp size)
  · obtain ⟨L, s, R, rfl, hL, hs⟩ := exists_first_fit hfit
    have hlen : (L ++ s :: R).length = L.length + R.length + 1 := by simp [Nat.add_assoc]
    obtain ⟨h', hmalloc, hrep, hend, -⟩ := malloc_first size _ hr hne hL hs (Nat.lt_succ_self _)
    refine ⟨_, h', _, fun fuel hfuel => malloc_mono_le (by omega) hmalloc, hrep, by rw [hend], ?_⟩
    exact Or.inl (Allots.mk L R s hL hs)
  · have hnone : ∀ t ∈ segs, ¬ t.Fits (roundUp size) := fun t ht hfits => hfit ⟨t, ht, hfits⟩
    obtain ⟨hg, hbelow⟩ := hserved.resolve_left hfit
    obtain ⟨L, s, rfl⟩ := hr.exists_last
    have hlen : (L ++ [s]).length = L.length + 1 := by simp
    obtain ⟨h', hmalloc, hrep, hend⟩ := malloc_grow hr hne hnone hg hbelow (Nat.lt_succ_self _)
    refine ⟨_, h', _, fun fuel hfuel => malloc_mono_le (by omega) hmalloc, hrep, ?_, ?_⟩
    · rw [hend]
      unfold pagesUp
      omega
    · exact Or.inr ⟨hnone, hg, Allots.mk (L ++ [s]) [] (grown h (roundUp size)) hnone
        (grown_fits hg)⟩

end EtaOs
