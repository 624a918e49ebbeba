import EtaOs.KernelHeap.Pages

/-!
# The memory that the pages of the heap show

Behind the page tables the pages of the heap are ordinary memory: the frames are all
different and are nothing else, so a store through a pointer into the heap changes the bytes
at that pointer and no others, as long as it does not run over the end of its page.

This is the border between two worlds.  Above it the heap is a function from addresses to bytes,
and a store is an update at one address; below it there are frames, tables and walks.  The
conditions under which the border holds are the fields of `Shown`.

* `Shows`: the pages of the heap show the bytes of a memory.
* `OnPage`: a range of bytes in one page of the heap.
* `Shown`: the pages are as they should be, and show a memory.
* `Shown.load64`, `Shown.load8`, `Shown.store64`, `Shown.store8`: the accesses are those of
  the memory shown.
-/

namespace EtaOs

open ByteMemory RadixTree

variable {memMap : List EfiMemoryDescriptor} {root a f x : BitVec 64} {v : Mem} {n j k : ℕ}
  {s : Kernel}

/-- The pages of the heap show the bytes of `v`. -/
def Shows (root a : BitVec 64) (n : ℕ) (v : Mem) (s : Kernel) : Prop :=
  ∀ j < n, ∀ f, Backs root a s j f → ∀ i : BitVec 64, i.toNat < 4096 →
    s.mem (f + i) = v (heapPage a j + i)

/-- The `k` bytes from `x` on lie in one page of the heap. -/
def OnPage (a : BitVec 64) (n : ℕ) (x : Addr) (k : ℕ) : Prop :=
  ∃ j < n, ∃ i : BitVec 64, x = heapPage a j + i ∧ i.toNat + k ≤ 4096

theorem OnPage.mono {n' : ℕ} (h : OnPage a n x k) (hn : n ≤ n') : OnPage a n' x k := by
  obtain ⟨j, hj, i, hx, hi⟩ := h
  exact ⟨j, lt_of_lt_of_le hj hn, i, hx, hi⟩

theorem OnPage.shorten {k' : ℕ} (h : OnPage a n x k) (hk : k' ≤ k) : OnPage a n x k' := by
  obtain ⟨j, hj, i, hx, hi⟩ := h
  exact ⟨j, hj, i, hx, by omega⟩

theorem OnPage.add (h : OnPage a n x k) {d : BitVec 64} {k' : ℕ} (hd : d.toNat + k' ≤ k) :
    OnPage a n (x + d) k' := by
  obtain ⟨j, hj, i, rfl, hi⟩ := h
  exact ⟨j, hj, i + d, BitVec.add_assoc _ _ _, by bv_omega⟩

/-- What an access through a pointer reads, or zero where it faults. -/
def Machine.view {σ : Type} (s : Machine σ) : Mem := fun x => ((s.phys x).map s.mem).getD 0

/-- A memory with `k` bytes from `p` on replaced. -/
def patch (m : Mem) (p : Addr) (k : ℕ) (b : ℕ → BitVec 8) : Mem := fun x =>
  if (x - p).toNat < k then b (x - p).toNat else m x

theorem store64_eq_patch (m : Mem) (p : Addr) (w : BitVec 64) :
    store64 m p w = patch m p 8 fun i => w.extractLsb' (8 * i) 8 := rfl

theorem store8_eq_patch (m : Mem) (p : Addr) (w : BitVec 8) :
    store8 m p w = patch m p 1 fun _ => w := by
  ext1 x
  have hx : x = p ↔ (x - p).toNat < 1 := by bv_omega
  simp only [store8, patch, hx]

/-- The pages of the heap are as they should be, and show `v`. -/
structure Shown (memMap : List EfiMemoryDescriptor) (root a : BitVec 64) (n : ℕ) (v : Mem)
    (s : Kernel) : Prop where
  pages : HeapPages memMap root a n s
  shows : Shows root a n v s

section Accesses

variable (hrange : HeapRange memMap a n)

include hrange

/-- A pointer into a page denotes the byte of the frame behind it. -/
theorem HeapPages.phys (h : HeapPages memMap root a n s) (hj : j < n) (hf : Backs root a s j f)
    {i : BitVec 64} (hi : i.toNat < 4096) : s.phys (heapPage a j + i) = some (f + i) := by
  have hpage := hrange.toNat_heapPage hj
  have haligned := hrange.aligned
  have hbelow := hrange.below
  have hoff : heapPage a j + i - heapPage a j = i := add_sub_cancel_left _ _
  have hphys := phys_of_walk h.identity.cr3 (t := heapPage a j) (x := heapPage a j + i)
    ⟨by omega, by omega⟩ hf (by rwa [hoff])
  rwa [hoff] at hphys

theorem HeapPages.shows_view (h : HeapPages memMap root a n s) : Shows root a n s.view s := by
  intro j hj f hf i hi
  rw [Machine.view, h.phys hrange hj hf hi]
  rfl

namespace Shown

omit hrange in
/-- The bytes of a page are those shown. -/
theorem load64_eq (h : Shown memMap root a n v s) (hj : j < n) (hf : Backs root a s j f)
    {i : BitVec 64} (hi : i.toNat + 8 ≤ 4096) :
    ByteMemory.load64 s.mem (f + i) = ByteMemory.load64 v (heapPage a j + i) := by
  refine eq_of_bytes_eq fun c hc => ?_
  rw [extractLsb'_load64 _ _ hc, extractLsb'_load64 _ _ hc, BitVec.add_assoc, BitVec.add_assoc]
  exact h.shows j hj f hf _ (by bv_omega)

/-- **A load through a pointer into the heap** reads the memory shown. -/
theorem load64 (h : Shown memMap root a n v s) (hx : OnPage a n x 8) :
    s.load64 x = some (ByteMemory.load64 v x) := by
  obtain ⟨j, hj, i, rfl, hi⟩ := hx
  obtain ⟨f, hf⟩ := h.pages.present j hj
  rw [Machine.load64, h.pages.phys hrange hj hf (by omega), Option.map_some,
    h.load64_eq hj hf hi]

theorem load8 (h : Shown memMap root a n v s) (hx : OnPage a n x 1) : s.load8 x = some (v x) := by
  obtain ⟨j, hj, i, rfl, hi⟩ := hx
  obtain ⟨f, hf⟩ := h.pages.present j hj
  rw [Machine.load8, h.pages.phys hrange hj hf (by omega), Option.map_some,
    h.shows j hj f hf i (by omega)]

variable (hwf : WellFormedMap memMap) (hroot : IsFrame root)

include hwf hroot

/-- **Bytes written in one frame are written in its page**, and nowhere else in the heap. -/
theorem patch (h : Shown memMap root a n v s) (hj : j < n) (hf : Backs root a s j f)
    {i : BitVec 64} (hi : i.toNat + k ≤ 4096) (b : ℕ → BitVec 8) :
    Shown memMap root a n (EtaOs.patch v (heapPage a j + i) k b)
      { s with mem := EtaOs.patch s.mem (f + i) k b } := by
  have hpatch : ∀ x, ¬ (x - f).toNat < 4096 → EtaOs.patch s.mem (f + i) k b x = s.mem x := by
    intro x hx
    refine if_neg fun hlt => hx ?_
    bv_omega
  obtain ⟨hpages, hwalk⟩ := h.pages.write hwf hroot hj hf hpatch
  refine ⟨hpages, fun j' hj' g hg i' hi' => ?_⟩
  have hg' : Backs root a s j' g := (hwalk _).symm.trans hg
  have hshow := h.shows j' hj' g hg' i' hi'
  by_cases hjj : j' = j
  · -- the page that is written: the same offset in the frame and in the page
    subst hjj
    obtain rfl : g = f := Option.some.inj (hg'.symm.trans hf)
    have hframe : g + i' - (g + i) = i' - i := by bv_omega
    have hpage : heapPage a j' + i' - (heapPage a j' + i) = i' - i := by bv_omega
    simp only [EtaOs.patch, hframe, hpage, hshow]
  · -- another page, with another frame
    have hne : f ≠ g := by
      rintro rfl
      exact hjj (h.pages.distinct j' hj' j hj f hg' hf)
    obtain ⟨h1, h2⟩ := (h.pages.held j hj f hf).frame.apart (h.pages.held j' hj' g hg').frame hne
    have hbelow := hrange.below
    have hpage := hrange.toNat_heapPage hj
    have hpage' := hrange.toNat_heapPage hj'
    have hframe : ¬ (g + i' - (f + i)).toNat < k := by bv_omega
    have hapart : ¬ (heapPage a j' + i' - (heapPage a j + i)).toNat < k := by
      rcases Nat.lt_or_gt_of_ne hjj with hlt | hlt <;> bv_omega
    simp only [EtaOs.patch, hframe, hapart, if_false, hshow]

/-- **A store through a pointer into the heap** is a store in the memory shown. -/
theorem store64 (h : Shown memMap root a n v s) (hx : OnPage a n x 8) (w : BitVec 64) :
    ∃ s', s.store64 x w = some s' ∧ Shown memMap root a n (ByteMemory.store64 v x w) s' := by
  obtain ⟨j, hj, i, rfl, hi⟩ := hx
  obtain ⟨f, hf⟩ := h.pages.present j hj
  refine ⟨_, ?_, h.patch hrange hwf hroot hj hf hi fun i => w.extractLsb' (8 * i) 8⟩
  rw [Machine.store64, h.pages.phys hrange hj hf (by omega), Option.map_some, store64_eq_patch]

theorem store8 (h : Shown memMap root a n v s) (hx : OnPage a n x 1) (w : BitVec 8) :
    ∃ s', s.store8 x w = some s' ∧ Shown memMap root a n (ByteMemory.store8 v x w) s' := by
  obtain ⟨j, hj, i, rfl, hi⟩ := hx
  obtain ⟨f, hf⟩ := h.pages.present j hj
  refine ⟨{ s with mem := ByteMemory.store8 s.mem (f + i) w }, ?_, ?_⟩
  · rw [Machine.store8, h.pages.phys hrange hj hf (by omega), Option.map_some]
  · rw [store8_eq_patch, store8_eq_patch]
    exact h.patch hrange hwf hroot hj hf hi fun _ => w

end Shown

end Accesses

end EtaOs
