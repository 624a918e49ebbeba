import EtaOs.Heap.Merges

/-!
# The list of headers stays intact

In a run the headers met from `heap_start` tile the heap, `last` is the inverse of `next`,
the list ends with `last_header`, and no two neighbours are free, as long as the heap is
extended only behind a segment in use and by enough pages, and `free` merges nothing.

The conditions on a run are conditions on its calls, and each of them excludes the merging of two
segments: a merge leaves a link to a header that is no longer there.

* `KeepsList`: the calls that keep the list intact.
* `ListInv`: the invariant on the list of segments.
* `listIntact_of_run`: the property holds after every run of such calls.
* `list_breaks`: it is lost with the first block that is freed in front of a free one.
-/

namespace EtaOs

open ByteMemory HeapSegHeader LinkedList Tiling Relation

/-- The calls that keep the list intact. -/
def KeepsList (s : HeapState) : HeapOp → Prop
  | .malloc size => roundUp size = 0 ∨ (∃ a, Met s.heap a ∧ FitsAt s.heap (roundUp size) a) ∨
      CanGrow s.heap (roundUp size) ∧ BelowEnd s.heap
  | .free b => NeighboursInUse s.heap b.ptr

/-- **The invariant of the list.**  The pointers of the live blocks are payloads of its
segments. -/
structure ListInv (s : HeapState) (segs : List Segment) : Prop where
  represents : Represents s.heap segs
  separated : NoFreeNeighbours segs
  owned : ∀ b ∈ s.live, ∃ t ∈ segs, b.ptr = t.addr + 32

variable {h : Heap} {segs segs' : List Segment} {r : BitVec 64} {p : Addr}

/-- Handing out the first fit leaves no two neighbours free. -/
theorem Allots.separated (ha : Allots r segs p segs') (hsep : NoFreeNeighbours segs) :
    NoFreeNeighbours segs' := by
  obtain ⟨L, R, s, -, hs⟩ := ha
  obtain ⟨hL, -, hsR, hR⟩ := separated_middle.mp hsep
  have hinUse : ∀ b : Bool, ¬ (b = true ∧ false = true) := by decide
  have hinUse' : ∀ b : Bool, ¬ (false = true ∧ b = true) := by decide
  rw [List.append_assoc]
  unfold allot
  split_ifs
  · exact hsep
  · exact separated_middle.mpr ⟨hL, fun t _ => hinUse t.free, fun t _ => hinUse' t.free, hR⟩
  · refine separated_middle.mpr ⟨hL, fun t _ => hinUse t.free, fun t _ => hinUse' t.free, ?_⟩
    refine (separated_middle (L := [])).mpr ⟨List.IsChain.nil, by simp, fun t ht hfree => ?_, hR⟩
    exact hsR t ht ⟨hs.1, hfree.2⟩

/-! ## One call -/

namespace ListInv

variable {s : HeapState} {b : Block}

/-- A request that meets the condition is served. -/
theorem served (hi : ListInv s segs)
    (hkeeps : (∃ a, Met s.heap a ∧ FitsAt s.heap r a) ∨ CanGrow s.heap r ∧ BelowEnd s.heap) :
    Served s.heap segs r := by
  rcases hkeeps with ⟨a, hmet, hfits⟩ | hgrow
  · obtain ⟨t, ht, rfl⟩ := hi.represents.met_iff.mp hmet
    exact Or.inl ⟨t, ht, (hi.represents.fitsAt_iff ht).mp hfits⟩
  · exact Or.inr hgrow

/-- The extension follows a segment in use. -/
theorem separated_grown (hi : ListInv s segs) (hg : CanGrow s.heap r) :
    NoFreeNeighbours (segs ++ [grown s.heap r]) := by
  obtain ⟨L, t, rfl⟩ := hi.represents.exists_last
  have hls : s.heap.lastHeader = t.addr := by simpa using hi.represents.lastHeader.symm
  have hused : t.free = false := by
    rw [← (hi.represents.fields t (by simp)).2, ← hls]
    exact hg.inUse
  obtain ⟨hL, hLt, -, -⟩ := separated_middle.mp hi.separated
  rw [List.append_assoc]
  refine separated_middle.mpr ⟨hL, hLt, fun u _ hfree => ?_, List.isChain_singleton _⟩
  rw [hused] at hfree
  exact absurd hfree.1 (by decide)

/-- **`malloc` keeps the invariant.** -/
theorem malloc {size : BitVec 64} {fuel : ℕ} {h : Heap} (hi : ListInv s segs)
    (hkeeps : KeepsList s (.malloc size)) (hmalloc : malloc fuel size s.heap = some (p, h)) :
    ∃ segs', ListInv ⟨h, if p = 0 then s.live else ⟨p, size⟩ :: s.live⟩ segs' := by
  by_cases h0 : roundUp size = 0
  · obtain ⟨rfl, rfl⟩ := malloc_step_zero h0 hmalloc
    exact ⟨segs, hi⟩
  · obtain ⟨segs', hr', -, hallots⟩ :=
      malloc_step hi.represents h0 (hi.served (hkeeps.resolve_left h0)) hmalloc
    obtain ⟨hsep, hkeep, t, ht, hpt⟩ : NoFreeNeighbours segs' ∧
        (∀ u ∈ segs, ∃ v ∈ segs', v.addr = u.addr) ∧ ∃ t ∈ segs', p = t.addr + 32 := by
      rcases hallots with hfit | ⟨-, hg, hgrown⟩
      · exact ⟨hfit.separated hi.separated, fun u => hfit.exists_addr, hfit.exists_payload⟩
      · exact ⟨hgrown.separated (hi.separated_grown hg),
          fun u hu => hgrown.exists_addr (List.mem_append_left _ hu), hgrown.exists_payload⟩
    have hp0 : p ≠ 0 := hpt ▸ hr'.payload_ne_zero ht
    refine ⟨segs', hr', hsep, ?_⟩
    rw [if_neg hp0]
    intro b hb
    rcases List.mem_cons.mp hb with rfl | hb
    · exact ⟨t, ht, hpt⟩
    · obtain ⟨u, hu, hbu⟩ := hi.owned b hb
      obtain ⟨v, hv, hvu⟩ := hkeep u hu
      exact ⟨v, hv, by rw [hbu, hvu]⟩

/-- **`free` keeps the invariant.** -/
theorem free (hi : ListInv s segs) (hb : b ∈ s.live) (hfree : NeighboursInUse s.heap b.ptr) :
    ∃ segs', ListInv ⟨free b.ptr s.heap, s.live.erase b⟩ segs' := by
  obtain ⟨t, ht, hbt⟩ := hi.owned b hb
  obtain ⟨L, R, rfl⟩ := List.append_of_mem ht
  rw [hbt] at hfree ⊢
  obtain ⟨hr', hLt, hRt⟩ := free_step hi.represents hfree
  refine ⟨_, hr', hi.separated.release hLt hRt, ?_⟩
  intro c hc
  obtain ⟨u, hu, hcu⟩ := hi.owned c (List.mem_of_mem_erase hc)
  have hcases : u = t ∨ u ∈ L ++ R := by simpa [or_left_comm] using hu
  rcases hcases with rfl | hu
  · exact ⟨{ u with free := true }, by simp, hcu⟩
  · exact ⟨u, mem_of_mem_rest hu, hcu⟩

end ListInv

/-! ## Runs -/

/-- **One call keeps the invariant.** -/
theorem listInv_step {s t : HeapState} {op : HeapOp} (hstep : HeapStep s op t)
    (hkeeps : KeepsList s op) (hi : ∃ segs, ListInv s segs) : ∃ segs, ListInv t segs := by
  obtain ⟨segs, hi⟩ := hi
  cases hstep with
  | malloc size fuel p h hmalloc => exact hi.malloc hkeeps hmalloc
  | free b hb => exact hi.free hb hkeeps

/-- **The list of headers stays intact** in every run whose calls neither extend the heap
behind a free segment or by too few pages, nor merge segments. -/
theorem listIntact_of_run {a n : BitVec 64} {h : Heap} {s : HeapState} (ha : 24 ≤ a.toNat)
    (hn : 1 ≤ n.toNat) (hfit : a.toNat + 4096 * n.toNat < 2 ^ 64)
    (hrun : HeapRun KeepsList (HeapState.initial a n h) s) : ListIntact s.heap := by
  have hinit : ListInv (HeapState.initial a n h) [initialSegment a n] :=
    ⟨represents_initHeap h ha hn hfit, List.isChain_singleton _,
      fun b hb => absurd hb List.not_mem_nil⟩
  obtain ⟨segs, hi⟩ : ∃ segs, ListInv s segs := by
    refine Runs.invariant (P := fun s => ∃ segs, ListInv s segs) ?_ hrun ⟨_, hinit⟩
    rintro s t ⟨op, hstep, hkeeps⟩ hi
    exact listInv_step hstep hkeeps hi
  exact hi.represents.listIntact hi.separated

/-- Two requests of 16 bytes split a heap of one page twice, and the first block is freed. -/
theorem listIntact_of_run_page : ∃ s, HeapRun KeepsList
    (HeapState.initial 0x100000000000 1 default) s ∧ s.live = [⟨0x100000000050, 16⟩] ∧
      ListIntact s.heap := by
  have hr := represents_onePage
  obtain ⟨h₁, hmalloc₁, hr₁, -⟩ := malloc_first 16 1 (L := []) (R := []) hr
    (by decide) (by simp) (by decide) (by decide)
  obtain ⟨h₂, hmalloc₂, hr₂, -⟩ := malloc_first 16 2 (L := [⟨0x100000000000, 16, false⟩])
    (s := ⟨0x100000000030, 4016, true⟩) (R := []) hr₁ (by decide) (by decide)
    (by decide) (by decide)
  -- each time the segment behind the blocks is split
  have hkeeps : ∀ {h : Heap} {segs : List Segment} {t : Segment} {live : List Block},
      Represents h segs → t ∈ segs → t.Fits (roundUp 16) → KeepsList ⟨h, live⟩ (.malloc 16) :=
    fun hr ht hfits =>
      Or.inr (Or.inl ⟨_, hr.met_iff.mpr ⟨_, ht, rfl⟩, (hr.fitsAt_iff ht).mpr hfits⟩)
  have hstep₁ := HeapStep.malloc (HeapState.initial 0x100000000000 1 default) 16 1 _ _ hmalloc₁
  have hstep₂ := HeapStep.malloc ⟨h₁, [⟨0x100000000020, 16⟩]⟩ 16 2 _ _ hmalloc₂
  have hstep₃ := HeapStep.free ⟨h₂, [⟨0x100000000050, 16⟩, ⟨0x100000000020, 16⟩]⟩
    ⟨0x100000000020, 16⟩ (List.mem_cons_of_mem _ List.mem_cons_self)
  have hkeeps₁ : KeepsList (HeapState.initial 0x100000000000 1 default) (.malloc 16) :=
    hkeeps hr (List.mem_singleton_self _) (by decide)
  have hkeeps₂ : KeepsList ⟨h₁, [⟨0x100000000020, 16⟩]⟩ (.malloc 16) :=
    hkeeps (t := ⟨0x100000000030, 4016, true⟩) hr₁ (List.mem_cons_of_mem _ List.mem_cons_self)
      (by decide)
  have hkeeps₃ : KeepsList ⟨h₂, [⟨0x100000000050, 16⟩, ⟨0x100000000020, 16⟩]⟩
      (.free ⟨0x100000000020, 16⟩) :=
    hr₂.neighboursInUse (L := []) (s := ⟨0x100000000000, 16, false⟩) (by simp) (by decide)
  have hrun : HeapRun KeepsList (HeapState.initial 0x100000000000 1 default) _ :=
    ((ReflTransGen.single ⟨_, hstep₁, hkeeps₁⟩).tail ⟨_, hstep₂, hkeeps₂⟩).tail ⟨_, hstep₃, hkeeps₃⟩
  exact ⟨_, hrun, rfl, listIntact_of_run (by decide) (by decide) (by decide) hrun⟩

/-- **The first block freed in front of a free segment breaks the list.** -/
theorem list_breaks : ¬ ∀ (h : Heap) (a n : BitVec 64) (s : HeapState), 1 ≤ n.toNat →
    HeapRun (fun _ _ => True) (HeapState.initial a n h) s → ListIntact s.heap := by
  intro hall
  have hr := represents_onePage
  obtain ⟨h', hmalloc, hr', -⟩ := malloc_first 16 1 (L := []) (R := [])
    hr (by decide) (by simp) (by decide) (by decide)
  have hstep₁ := HeapStep.malloc (HeapState.initial 0x100000000000 1 default) 16 1 _ _ hmalloc
  have hstep₂ := HeapStep.free ⟨h', [⟨0x100000000020, 16⟩]⟩ ⟨0x100000000020, 16⟩ List.mem_cons_self
  have hrun : HeapRun (fun _ _ => True) (HeapState.initial 0x100000000000 1 default) _ :=
    (ReflTransGen.single ⟨_, hstep₁, trivial⟩).tail ⟨_, hstep₂, trivial⟩
  have hintact : ListIntact (EtaOs.free 0x100000000020 h') := hall _ _ _ _ (by decide) hrun
  have hlist : Represents h'
      ([] ++ ⟨0x100000000000, 16, false⟩ :: [⟨0x100000000030, 4016, true⟩]) :=
    hr'
  have hsep : NoFreeNeighbours
      ([] ++ ⟨0x100000000000, 16, false⟩ :: [⟨0x100000000030, 4016, true⟩]) :=
    separated_middle.mpr ⟨List.IsChain.nil, by simp, by simp, List.isChain_singleton _⟩
  have hinUse := (listIntact_free_iff hlist hsep).mp hintact
  obtain ⟨-, -, hR⟩ := free_step hlist hinUse
  exact absurd (hR _ rfl) (by decide)

end EtaOs
