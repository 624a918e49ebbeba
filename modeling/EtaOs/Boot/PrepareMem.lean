import EtaOs.Allocator.LiveFrames
import EtaOs.Allocator.Paged
import EtaOs.Paging.Refinement

/-!
# `prepare_mem`

`prepare_mem` of `kernel_util.cpp`: it reads the memory map, locks the kernel, maps
memory and the framebuffer to themselves, and loads the new PML4.

Both mapping loops count addresses in steps of a page.  The first is bounded by
`get_memory_size`, the second by the end of the framebuffer, where the sum that gives the
end may wrap.  A loop that ends has visited the addresses of its start's offset between
start and bound, `Visited`, each once and in order.

The model follows the source statement by statement, and the loops are recursions with a number of
iterations that no loop can exceed without running for ever.  What comes after reasons about the
calls of `map_mem` that a loop amounts to, a list, and never about the loop again.
-/

namespace EtaOs

open ByteMemory RadixTree

/-- What `prepare_mem` reads: the memory map and the framebuffer of `BOOT_INFO`, and the
linker's symbols around the kernel. -/
structure BootInfo where
  memMap : List EfiMemoryDescriptor
  baseAdress : BitVec 64
  bufferSize : BitVec 64
  kernelStart : BitVec 64
  kernelEnd : BitVec 64

/-- `for (uint64_t i = start; i < bound; i += 4096) map_mem(i, i)`, where the bound is
evaluated before every iteration.  There are fewer than `2 ^ 52 + 1` addresses of one
offset, so a loop that takes more steps never ends. -/
def identityLoop (ptm : PageTableManager) (bound : Kernel → BitVec 64 × Kernel) :
    ℕ → BitVec 64 → Kernel → Option Kernel
  | 0, _, _ => none
  | fuel + 1, i, s =>
      let r := bound s
      if i < r.1 then
        (ptm.mapMem bootAllocator r.2 i i).bind (identityLoop ptm bound fuel (i + 4096))
      else some r.2

/-- `prepare_mem`. -/
def prepareMem (s : Kernel) (info : BootInfo) : Option Kernel :=
  let s := { s with alloc := { s.alloc with pageBitmap := ⟨0, 0⟩ } }
  let s := readEfiMemoryMap s info.memMap
  let kernelSize := info.kernelEnd - info.kernelStart
  let kernelPages := kernelSize / 4096 + 1
  let s := lockPages s info.kernelStart kernelPages
  let r := s.takeFrame bootAllocator
  let pml4 := r.1
  (memset r.2 pml4 0 4096).bind fun s =>
    (identityLoop ⟨pml4⟩ (fun s => getMemorySize s info.memMap) (2 ^ 52 + 1) 0 s).bind fun s =>
      let frameBufBase := info.baseAdress
      let frameBufSize := info.bufferSize + 4096
      let s := lockPages s frameBufBase (frameBufSize / 4096 + 1)
      (identityLoop ⟨pml4⟩ (fun s => (frameBufBase + frameBufSize, s)) (2 ^ 52 + 1) frameBufBase
        s).map fun s => { s with cr3 := some pml4 }

/-! ## The loops as calls of `map_mem` -/

/-- The calls of `count` iterations from `i` on. -/
def identityCalls : ℕ → BitVec 64 → List (BitVec 64 × BitVec 64)
  | 0, _ => []
  | count + 1, i => (i, i) :: identityCalls count (i + 4096)

theorem add_page_add (i : BitVec 64) (j : ℕ) :
    i + 4096 + BitVec.ofNat 64 (4096 * j) = i + BitVec.ofNat 64 (4096 * (j + 1)) := by
  rw [Nat.mul_succ, Nat.add_comm, BitVec.ofNat_add, ← BitVec.add_assoc]
  rfl

theorem mem_identityCalls : ∀ {count : ℕ} {i : BitVec 64} {c : BitVec 64 × BitVec 64},
    c ∈ identityCalls count i ↔
      ∃ j < count, c = (i + BitVec.ofNat 64 (4096 * j), i + BitVec.ofNat 64 (4096 * j)) := by
  intro count
  induction count with
  | zero =>
      intro i c
      exact by simp [identityCalls]
  | succ count ih =>
      intro i c
      rw [identityCalls, List.mem_cons, ih]
      constructor
      · rintro (rfl | ⟨j, hj, rfl⟩)
        · exact ⟨0, by omega, by simp⟩
        · exact ⟨j + 1, by omega, by rw [add_page_add]⟩
      · rintro ⟨j, hj, rfl⟩
        cases j with
        | zero => exact Or.inl (by simp)
        | succ j => exact Or.inr ⟨j, by omega, by rw [add_page_add]⟩

/-- The addresses a loop from `start` to `stop` visits when it ends. -/
def Visited (start stop i : BitVec 64) : Prop :=
  start.toNat ≤ i.toNat ∧ i.toNat % 4096 = start.toNat % 4096 ∧ i.toNat < stop.toNat

/-- The number of iterations of a loop that ends. -/
structure Iterations (start stop : BitVec 64) (count : ℕ) : Prop where
  before : ∀ j < count, start + BitVec.ofNat 64 (4096 * j) < stop
  after : ¬ start + BitVec.ofNat 64 (4096 * count) < stop

/-- The counter of a loop that ends does not wrap. -/
theorem Iterations.noWrap {start stop : BitVec 64} {count : ℕ} (h : Iterations start stop count) :
    start.toNat + 4096 * count < 2 ^ 64 := by
  by_contra hge
  have hlt := start.isLt
  -- the last address before the wrap is the largest of its offset
  have hbefore := h.before ((2 ^ 64 - 1 - start.toNat) / 4096) (by omega)
  have hafter := h.after
  rw [BitVec.lt_def, BitVec.toNat_add, BitVec.toNat_ofNat] at hbefore hafter
  omega

theorem Iterations.visited_iff {start stop : BitVec 64} {count : ℕ}
    (h : Iterations start stop count) {i : BitVec 64} :
    Visited start stop i ↔ ∃ j < count, i = start + BitVec.ofNat 64 (4096 * j) := by
  have hwrap := h.noWrap
  have hafter := h.after
  rw [BitVec.lt_def, BitVec.toNat_add, BitVec.toNat_ofNat] at hafter
  constructor
  · rintro ⟨hge, hmod, hlt⟩
    refine ⟨(i.toNat - start.toNat) / 4096, by omega, BitVec.eq_of_toNat_eq ?_⟩
    rw [BitVec.toNat_add, BitVec.toNat_ofNat]
    omega
  · rintro ⟨j, hj, rfl⟩
    have hbefore := h.before j hj
    rw [BitVec.lt_def] at hbefore
    refine ⟨?_, ?_, hbefore⟩
    · rw [BitVec.toNat_add, BitVec.toNat_ofNat]
      omega
    · rw [BitVec.toNat_add, BitVec.toNat_ofNat]
      omega

/-- **A loop that ends is a sequence of calls.**  The bound stays the same as long as `P`,
which `map_mem` keeps. -/
theorem identityLoop_eq {ptm : PageTableManager} {bound : Kernel → BitVec 64 × Kernel}
    {P : Kernel → Prop} {stop : BitVec 64} (hbound : ∀ s, P s → bound s = (stop, s))
    (hmap : ∀ s s' i, P s → ptm.mapMem bootAllocator s i i = some s' → P s') :
    ∀ {fuel : ℕ} {i : BitVec 64} {s s' : Kernel}, P s →
      identityLoop ptm bound fuel i s = some s' →
      P s' ∧ ∃ count, Iterations i stop count ∧
        mapCalls bootAllocator ptm s (identityCalls count i) = some s' := by
  intro fuel
  induction fuel with
  | zero =>
      intro i s s' _ h
      exact absurd h.symm (Option.some_ne_none s')
  | succ fuel ih =>
      intro i s s' hP h
      rw [identityLoop, hbound s hP] at h
      dsimp only at h
      by_cases hlt : i < stop
      · rw [if_pos hlt, Option.bind_eq_some_iff] at h
        obtain ⟨s₁, h1, hrest⟩ := h
        obtain ⟨hP', count, hcount, hcalls⟩ :=
          ih (hmap s s₁ i hP h1) hrest
        refine ⟨hP', count + 1, ⟨?_, ?_⟩, ?_⟩
        · intro j hj
          cases j with
          | zero => simpa using hlt
          | succ j =>
              rw [← add_page_add]
              exact hcount.before j (by omega)
        · rw [← add_page_add]
          exact hcount.after
        · rw [identityCalls, mapCalls, h1]
          exact hcalls
      · rw [if_neg hlt] at h
        obtain rfl := Option.some.inj h
        exact ⟨hP, 0, ⟨fun j hj => absurd hj (Nat.not_lt_zero j), by simpa using hlt⟩, rfl⟩

/-- **A loop whose bound leaves room for a page ends**, without paging. -/
theorem identityLoop_isSome {ptm : PageTableManager} {bound : Kernel → BitVec 64 × Kernel}
    {P : Kernel → Prop} {stop : BitVec 64} (hbound : ∀ s, P s → bound s = (stop, s))
    (hmap : ∀ s s' i, P s → ptm.mapMem bootAllocator s i i = some s' → P s')
    (hstop : stop.toNat ≤ 2 ^ 64 - 4096) :
    ∀ {fuel : ℕ} {i : BitVec 64} {s : Kernel}, P s → s.cr3 = none →
      stop.toNat ≤ i.toNat + 4096 * fuel →
      ∃ s', identityLoop ptm bound (fuel + 1) i s = some s' := by
  intro fuel
  induction fuel with
  | zero =>
      intro i s hP _ hfuel
      rw [identityLoop, hbound s hP]
      dsimp only
      rw [if_neg (by bv_omega)]
      exact ⟨s, rfl⟩
  | succ fuel ih =>
      intro i s hP hcr3 hfuel
      rw [identityLoop, hbound s hP]
      dsimp only
      by_cases hlt : i < stop
      · obtain ⟨s₁, h1⟩ := mapMem_isSome bootAllocator hcr3 ptm i i
        rw [if_pos hlt, h1, Option.bind_some]
        have hnext : (i + 4096).toNat = i.toNat + 4096 := by bv_omega
        exact ih (hmap s s₁ i hP h1) ((mapMem_cr3 h1).trans hcr3)
          (by omega)
      · rw [if_neg hlt]
        exact ⟨s, rfl⟩

/-! ## The last call for a page -/

theorem lastMapped_eq_none_iff {calls : List (BitVec 64 × BitVec 64)} {w : BitVec 64} :
    lastMapped calls w = none ↔ ∀ c ∈ calls, ¬ SamePage c.1 w := by
  rw [lastMapped, Option.map_eq_none_iff, List.find?_eq_none]
  simp

/-- The last address of a loop that has the table indices of `w`. -/
def LastVisited (start stop w i : BitVec 64) : Prop :=
  Visited start stop i ∧ SamePage i w ∧
    ∀ j, Visited start stop j → SamePage j w → j.toNat ≤ i.toNat

theorem lastMapped_identityCalls : ∀ {count : ℕ} {start w i : BitVec 64},
    lastMapped (identityCalls count start) w = some i ↔
      ∃ j < count, i = start + BitVec.ofNat 64 (4096 * j) ∧ SamePage i w ∧
        ∀ k < count, j < k → ¬ SamePage (start + BitVec.ofNat 64 (4096 * k)) w := by
  intro count
  induction count with
  | zero =>
      intro start w i
      exact by simp [identityCalls, lastMapped]
  | succ count ih =>
      intro start w i
      rw [identityCalls, lastMapped_cons, Option.or_eq_some_iff, ih,
        lastMapped_eq_none_iff]
      constructor
      · rintro (⟨j, hj, rfl, hsame, hlast⟩ | ⟨hnone, hfirst⟩)
        · refine ⟨j + 1, by omega, add_page_add start j, hsame, fun k hk hjk => ?_⟩
          obtain ⟨k, rfl⟩ : ∃ k', k = k' + 1 := ⟨k - 1, by omega⟩
          rw [← add_page_add]
          exact hlast k (by omega) (by omega)
        · split at hfirst
          next hsame =>
            obtain rfl := Option.some.inj hfirst
            refine ⟨0, by omega, by simp, hsame, fun k hk h0k => ?_⟩
            obtain ⟨k, rfl⟩ : ∃ k', k = k' + 1 := ⟨k - 1, by omega⟩
            rw [← add_page_add]
            exact hnone (_, _) (mem_identityCalls.mpr ⟨k, by omega, rfl⟩)
          next => exact absurd hfirst.symm (Option.some_ne_none i)
      · rintro ⟨j, hj, rfl, hsame, hlast⟩
        cases j with
        | zero =>
            refine Or.inr ⟨fun c hc => ?_, ?_⟩
            · obtain ⟨k, hk, rfl⟩ := mem_identityCalls.mp hc
              rw [add_page_add]
              exact hlast (k + 1) (by omega) (by omega)
            · rw [Nat.mul_zero, BitVec.add_zero] at hsame ⊢
              rw [if_pos hsame]
        | succ j =>
            refine Or.inl ⟨j, by omega, (add_page_add start j).symm, hsame, fun k hk hjk => ?_⟩
            rw [add_page_add]
            exact hlast (k + 1) (by omega) (by omega)

/-- **The last call of a loop for a page** is its last address with these table indices. -/
theorem Iterations.lastMapped_iff {start stop w i : BitVec 64} {count : ℕ}
    (h : Iterations start stop count) :
    lastMapped (identityCalls count start) w = some i ↔ LastVisited start stop w i := by
  have hwrap := h.noWrap
  have hnat : ∀ j < count, (start + BitVec.ofNat 64 (4096 * j)).toNat = start.toNat + 4096 * j := by
    intro j hj
    rw [BitVec.toNat_add, BitVec.toNat_ofNat]
    omega
  rw [lastMapped_identityCalls]
  constructor
  · rintro ⟨j, hj, rfl, hsame, hlast⟩
    refine ⟨h.visited_iff.mpr ⟨j, hj, rfl⟩, hsame, fun y hy hyw => ?_⟩
    obtain ⟨k, hk, rfl⟩ := h.visited_iff.mp hy
    rw [hnat j hj, hnat k hk]
    by_contra hgt
    exact hlast k hk (by omega) hyw
  · rintro ⟨hvisited, hsame, hlast⟩
    obtain ⟨j, hj, rfl⟩ := h.visited_iff.mp hvisited
    refine ⟨j, hj, rfl, hsame, fun k hk hjk hkw => ?_⟩
    have hle := hlast _ (h.visited_iff.mpr ⟨k, hk, rfl⟩) hkw
    rw [hnat j hj, hnat k hk] at hle
    omega

theorem Iterations.lastMapped_eq_none_iff {start stop w : BitVec 64} {count : ℕ}
    (h : Iterations start stop count) :
    lastMapped (identityCalls count start) w = none ↔
      ∀ i, Visited start stop i → ¬ SamePage i w := by
  rw [EtaOs.lastMapped_eq_none_iff]
  constructor
  · intro hnone i hi
    obtain ⟨j, hj, rfl⟩ := h.visited_iff.mp hi
    exact hnone (_, _) (mem_identityCalls.mpr ⟨j, hj, rfl⟩)
  · intro hnone c hc
    obtain ⟨j, hj, rfl⟩ := mem_identityCalls.mp hc
    exact hnone _ (h.visited_iff.mpr ⟨j, hj, rfl⟩)

end EtaOs
