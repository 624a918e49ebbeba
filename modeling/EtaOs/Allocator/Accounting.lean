import Mathlib.Data.Set.Card
import Mathlib.Order.Interval.Finset.Nat
import EtaOs.Allocator.Runs

/-!
# Memory accounting

Every operation that marks a frame takes a page from free memory and books it to one of
the two accounts, and every operation that unmarks one does the opposite.  So for each
pass over the bitmap the sum of free memory and the marked frames stays, and so does the
difference of an account and the marked frames.

What this says about the frames `0 .. n - 1` of the memory map depends on the marks the
initialisation leaves above them: `reserve_pages(0, mem_size / 4096 + 1)` books one frame
more than the map has, so the counters are off by a page on every map whose frame `n` is
marked.

* `Machine.markedFrames`: the marked frames the bound check lets through.
* `Books account s s'`: what an operation that books to one account does to the counters.
* `AccountsExact`, `accounts_exact_iff`: exact accounting over all runs, and the condition
  on the memory map under which it holds.
-/

namespace EtaOs

open ByteMemory IntLoop Relation

/-! ## Booking frames -/

/-- The marked frames that pass the bound check. -/
def Machine.markedFrames (s : Kernel) : Finset ℕ :=
  (Finset.range (s.last + 1)).filter fun k => s.marked k = true

theorem Machine.mem_markedFrames {s : Kernel} {k : ℕ} :
    k ∈ s.markedFrames ↔ k ≤ s.last ∧ s.marked k = true := by
  rw [markedFrames, Finset.mem_filter, Finset.mem_range, Nat.lt_succ_iff]

/-- The bytes of `k` frames, as the counters hold them. -/
def pageBytes (k : ℕ) : BitVec 64 := BitVec.ofNat 64 (4096 * k)

theorem pageBytes_succ (k : ℕ) : pageBytes (k + 1) = pageBytes k + 4096 := by
  rw [pageBytes, pageBytes, Nat.mul_succ, BitVec.ofNat_add]
  rfl

theorem pageBytes_add (j k : ℕ) : pageBytes (j + k) = pageBytes j + pageBytes k := by
  rw [pageBytes, Nat.mul_add, BitVec.ofNat_add]
  rfl

theorem eq_pageBytes_sub {x : BitVec 64} {j k : ℕ} (h : x + pageBytes k = pageBytes j)
    (hle : k ≤ j) :
    x = pageBytes (j - k) := by
  have hsum : pageBytes (j - k) + pageBytes k = pageBytes j := by
    rw [← pageBytes_add, Nat.sub_add_cancel hle]
  rw [← hsum] at h
  exact add_right_cancel h

theorem toNat_pageBytes {k : ℕ} (h : k < 2 ^ 52) : (pageBytes k).toNat = 4096 * k := by
  rw [pageBytes, BitVec.toNat_ofNat]
  omega

/-- The counter of an account. -/
def PageFrameAllocator.booked (a : PageFrameAllocator) : Account → BitVec 64
  | .used => a.usedMemory
  | .reserved => a.reservedMemory

/-- The change of the counters from `s` to `s'` is that of the marks, booked to one
account. -/
structure Books (account : Account) (s s' : Kernel) : Prop where
  last : s'.last = s.last
  free : s'.alloc.freeMemory + pageBytes s'.markedFrames.card =
    s.alloc.freeMemory + pageBytes s.markedFrames.card
  booked : s'.alloc.booked account - pageBytes s'.markedFrames.card =
    s.alloc.booked account - pageBytes s.markedFrames.card
  other : ∀ b ≠ account, s'.alloc.booked b = s.alloc.booked b

namespace Books

variable {account : Account} {s s' s'' : Kernel}

theorem refl (account : Account) (s : Kernel) : Books account s s :=
  ⟨rfl, rfl, rfl, fun _ _ => rfl⟩

theorem trans (h : Books account s s') (h' : Books account s' s'') : Books account s s'' where
  last := h'.last.trans h.last
  free := h'.free.trans h.free
  booked := h'.booked.trans h.booked
  other := fun b hb => (h'.other b hb).trans (h.other b hb)

/-- The marked frames after a new mark. -/
theorem markedFrames_insert {k : ℕ} (hlast : s'.last = s.last) (hk : k ≤ s.last)
    (hmark : ∀ j ≤ s.last, s'.marked j = true ↔ s.marked j = true ∨ k = j) :
    s'.markedFrames = insert k s.markedFrames := by
  ext j
  rw [Finset.mem_insert, Machine.mem_markedFrames, Machine.mem_markedFrames, hlast]
  constructor
  · rintro ⟨hj, hm⟩
    rcases (hmark j hj).mp hm with hm | rfl
    · exact Or.inr ⟨hj, hm⟩
    · exact Or.inl rfl
  · rintro (rfl | ⟨hj, hm⟩)
    · exact ⟨hk, (hmark j hk).mpr (Or.inr rfl)⟩
    · exact ⟨hj, (hmark j hj).mpr (Or.inl hm)⟩

theorem takePage (account : Account) (s : Kernel) (addr : BitVec 64) :
    Books account s (takePage account s addr) := by
  rcases takePage_cases account s addr with ⟨-, heq⟩ | ⟨hle, hfree, heq⟩
  · rw [heq]
    exact Books.refl account s
  · have hlast := (keeps_takePage account s addr).last
    have hcard : (EtaOs.takePage account s addr).markedFrames.card = s.markedFrames.card + 1 := by
      rw [markedFrames_insert hlast hle fun j hj => marked_takePage hj,
        Finset.card_insert_of_notMem]
      rw [Machine.mem_markedFrames, hfree]
      simp
    refine ⟨hlast, ?_, ?_, ?_⟩
    · rw [hcard, pageBytes_succ, heq]
      cases account <;> simp only [Machine.setMark, PageFrameAllocator.take] <;> bv_omega
    · rw [hcard, pageBytes_succ, heq]
      cases account <;>
        simp only [Machine.setMark, PageFrameAllocator.take, PageFrameAllocator.booked] <;> bv_omega
    · intro b hb
      rw [heq]
      cases account <;> cases b <;> first | exact absurd rfl hb | rfl

theorem givePage (account : Account) (s : Kernel) (addr : BitVec 64) :
    Books account s (givePage account s addr) := by
  rcases givePage_cases account s addr with ⟨-, heq⟩ | ⟨hle, hmarked, heq⟩
  · rw [heq]
    exact Books.refl account s
  · have hlast := (keeps_givePage account s addr).last
    -- the frame given back is the mark that is gone
    have hcard : s.markedFrames.card = (EtaOs.givePage account s addr).markedFrames.card + 1 := by
      rw [markedFrames_insert (s := EtaOs.givePage account s addr) hlast.symm (hlast ▸ hle),
        Finset.card_insert_of_notMem]
      · rw [Machine.mem_markedFrames, marked_givePage hle]
        simp
      · intro j hj
        rw [marked_givePage (hlast ▸ hj)]
        by_cases hjk : frameIndex addr = j
        · rw [← hjk]
          exact ⟨fun _ => Or.inr rfl, fun _ => hmarked⟩
        · exact ⟨fun hm => Or.inl ⟨hm, hjk⟩, fun hm => (hm.resolve_right hjk).1⟩
    have hbooked : ∀ b, (s.alloc.give account |>.lowerHint (addr / 4096)).booked b =
        (s.alloc.give account).booked b := by
      intro b
      rw [PageFrameAllocator.lowerHint]
      split <;> cases b <;> rfl
    have hfree : (s.alloc.give account |>.lowerHint (addr / 4096)).freeMemory =
        (s.alloc.give account).freeMemory := by
      rw [PageFrameAllocator.lowerHint]
      split <;> rfl
    refine ⟨hlast, ?_, ?_, ?_⟩
    · rw [hcard, pageBytes_succ]
      have hs' : (EtaOs.givePage account s addr).alloc.freeMemory =
          (s.alloc.give account).freeMemory := by rw [heq]; exact hfree
      rw [hs']
      cases account <;> simp only [PageFrameAllocator.give] <;> bv_omega
    · rw [hcard, pageBytes_succ]
      have hs' : (EtaOs.givePage account s addr).alloc.booked account =
          (s.alloc.give account).booked account := by rw [heq]; exact hbooked account
      rw [hs']
      cases account <;> simp only [PageFrameAllocator.give, PageFrameAllocator.booked] <;> bv_omega
    · intro b hb
      have hs' : (EtaOs.givePage account s addr).alloc.booked b =
          (s.alloc.give account).booked b := by rw [heq]; exact hbooked b
      rw [hs']
      cases account <;> cases b <;>
        first | exact absurd rfl hb | simp only [PageFrameAllocator.give, PageFrameAllocator.booked]

/-- **A range books what its frames book.** -/
theorem forPages {op : Kernel → BitVec 64 → Kernel} (hop : ∀ t addr, Books account t (op t addr))
    (s : Kernel) (addr pageCount : BitVec 64) : Books account s (forPages op s addr pageCount) :=
  forInt_induction (fun i t _ h => h.trans (hop t (pageAt addr i))) (Books.refl account s)

theorem requestPage (h : HintInv s) : Books .used s (requestPage s).2 := by
  have hhint : ∀ i, Books .used s (s.withHint i) := fun i =>
    ⟨rfl, rfl, rfl, fun b _ => by cases b <;> rfl⟩
  rcases requestPage_cases h with ⟨i, -, -, -, heq⟩ | ⟨-, heq⟩
  · rw [heq]
    exact (hhint i).trans (takePage .used (s.withHint i) (i * 4096))
  · rw [heq]
    exact hhint _

end Books

/-! ## The counters and the frames of the map -/

/-- The clear frames below `n`. -/
def Machine.clearFrames (s : Kernel) (n : ℕ) : Finset ℕ :=
  (Finset.range n).filter fun k => s.marked k = false

/-- The marked frames from `n` on. -/
def Machine.markedAbove (s : Kernel) (n : ℕ) : Finset ℕ := s.markedFrames.filter fun k => n ≤ k

/-- The frames below `n` are marked or clear. -/
theorem card_markedFrames_add {s : Kernel} {n : ℕ} (h : n ≤ s.last) :
    s.markedFrames.card + (s.clearFrames n).card = n + (s.markedAbove n).card := by
  have hsplit := s.markedFrames.card_filter_add_card_filter_not fun k => n ≤ k
  have hrange := (Finset.range n).card_filter_add_card_filter_not fun k => s.marked k = false
  have hbelow : (s.markedFrames.filter fun k => ¬ n ≤ k) =
      (Finset.range n).filter fun k => ¬ s.marked k = false := by
    ext k
    rw [Finset.mem_filter, Finset.mem_filter, Machine.mem_markedFrames, Finset.mem_range,
      Bool.not_eq_false]
    constructor
    · rintro ⟨⟨-, hm⟩, hk⟩
      exact ⟨by omega, hm⟩
    · rintro ⟨hk, hm⟩
      exact ⟨⟨by omega, hm⟩, by omega⟩
  rw [hbelow] at hsplit
  rw [Finset.card_range] at hrange
  rw [Machine.markedAbove, Machine.clearFrames]
  omega

/-- The counters of a state agree with its marks and with the size of the memory. -/
structure AccountsAgree (memMap : List EfiMemoryDescriptor) (s : Kernel) : Prop where
  free : (getFreeMem s).toNat = 4096 * (s.clearFrames (totalFrames memMap)).card
  sum : (getFreeMem s).toNat + (getUsedMem s).toNat + (getReservedMem s).toNat =
    (totalMem memMap).toNat

theorem totalMem_eq (memMap : List EfiMemoryDescriptor) :
    totalMem memMap = pageBytes (totalFrames memMap) := by
  have hmod : (totalMem memMap).toNat % 4096 = 0 := by
    rw [totalMem]
    refine forEntries_induction (P := fun n : BitVec 64 => n.toNat % 4096 = 0) ?_ rfl
    intro desc n _ hn
    rw [BitVec.toNat_add, BitVec.toNat_mul, show (4096 : BitVec 64).toNat = 4096 by rfl]
    omega
  apply BitVec.eq_of_toNat_eq
  have hlt := totalFrames_lt memMap
  rw [toNat_pageBytes hlt, totalFrames]
  omega

theorem totalFrames_le_last (memMap : List EfiMemoryDescriptor) :
    totalFrames memMap ≤ (initialBitmap memMap).last := by
  rw [initialBitmap_last, initialBitmap_size]
  omega

/-! ## The counters after initialisation -/

/-- The passes up to the second `reserve_pages` leave frame `k` marked. -/
def MarkedBeforeLock (m : Mem) (memMap : List EfiMemoryDescriptor) (k : ℕ) : Prop :=
  (LeftOver m memMap k ∨ Swept memMap k) ∧ ¬ Released memMap k ∨ k < 0x100

variable {m : Mem} {memMap : List EfiMemoryDescriptor}

theorem books_afterReserveBios (m : Mem) (memMap : List EfiMemoryDescriptor) :
    Books .reserved (afterInitBitmap m memMap) (afterReserveBios m memMap) := by
  have htake := Books.takePage .reserved
  have hgive := Books.givePage .reserved
  have h1 : Books .reserved (afterInitBitmap m memMap) (afterReserve m memMap) :=
    Books.forPages htake _ _ _
  have h2 : Books .reserved (afterReserve m memMap) (afterUnreserve m memMap) := by
    refine forEntries_induction (P := fun t => Books .reserved (afterReserve m memMap) t) ?_
      (Books.refl _ _)
    intro desc t _ ht
    split
    · exact ht.trans (Books.forPages hgive _ _ _)
    · exact ht
  exact (h1.trans h2).trans (Books.forPages htake _ _ _)

theorem books_readEfiMemoryMap (m : Mem) (memMap : List EfiMemoryDescriptor) :
    Books .used (afterReserveBios m memMap) (readEfiMemoryMap (bootKernel m) memMap) := by
  rw [readEfiMemoryMap_boot]
  exact Books.forPages (Books.takePage .used) _ _ _

theorem marked_afterReserveBios {k : ℕ} (hk : k ≤ (initialBitmap memMap).last) :
    (afterReserveBios m memMap).marked k = true ↔ MarkedBeforeLock m memMap k := by
  have hlast : k ≤ (afterUnreserve m memMap).last := by
    rwa [(keeps_afterUnreserve m memMap).last, (keeps_afterReserve m memMap).last, Machine.last,
      afterInitBitmap_pageBitmap]
  rw [afterReserveBios, reservePages, reservePage, marked_forPages_takePage hlast,
    marked_afterUnreserve hk, loopFrames_bios]
  rfl

/-- The number of marked frames of a state with known marks. -/
theorem card_markedFrames {s : Kernel} {P : ℕ → Prop}
    (h : ∀ k ≤ s.last, s.marked k = true ↔ P k) :
    s.markedFrames.card = {k | k ≤ s.last ∧ P k}.ncard := by
  rw [← Set.ncard_coe_finset]
  congr 1
  ext k
  rw [Finset.mem_coe, Machine.mem_markedFrames]
  exact and_congr_right fun hk => h k hk

/-- The counters of a state reached by booking frames to the used account. -/
structure Ledger (m : Mem) (memMap : List EfiMemoryDescriptor) (s : Kernel) : Prop where
  last : s.last = (initialBitmap memMap).last
  free : s.alloc.freeMemory + pageBytes s.markedFrames.card =
    pageBytes (totalFrames memMap + (afterInitBitmap m memMap).markedFrames.card)
  used : s.alloc.usedMemory + pageBytes (afterReserveBios m memMap).markedFrames.card =
    pageBytes s.markedFrames.card
  reserved : s.alloc.reservedMemory + pageBytes (afterInitBitmap m memMap).markedFrames.card =
    pageBytes (afterReserveBios m memMap).markedFrames.card

theorem Ledger.of_books {s : Kernel} (h : Books .used (afterReserveBios m memMap) s) :
    Ledger m memMap s := by
  have hbios := books_afterReserveBios m memMap
  have halloc := afterInitBitmap_alloc m memMap
  have hlast0 : (afterInitBitmap m memMap).last = (initialBitmap memMap).last := by
    rw [Machine.last, afterInitBitmap_pageBitmap]
  have hfree := hbios.free
  have hreserved := hbios.booked
  have hused := hbios.other .used (by decide)
  rw [halloc] at hfree hreserved hused
  refine ⟨h.last.trans (hbios.last.trans hlast0), ?_, ?_, ?_⟩
  · rw [h.free, hfree, totalMem_eq, pageBytes_add]
  · have hbooked := h.booked
    simp only [PageFrameAllocator.booked] at hbooked hused
    rw [hused, sub_eq_sub_iff_add_eq_add, zero_add] at hbooked
    exact hbooked
  · have hother := h.other .reserved (by decide)
    simp only [PageFrameAllocator.booked] at hother hreserved
    rw [sub_eq_sub_iff_add_eq_add, zero_add] at hreserved
    rw [hother]
    exact hreserved

/-- With as many marks above the map as bits left over, and no more left over than were
marked before the lock, the counters agree with the marks. -/
theorem Ledger.accountsAgree {s : Kernel} (h : Ledger m memMap s)
    (habove : (s.markedAbove (totalFrames memMap)).card =
      (afterInitBitmap m memMap).markedFrames.card)
    (hleft : (afterInitBitmap m memMap).markedFrames.card ≤
      (afterReserveBios m memMap).markedFrames.card)
    (hmono : (afterReserveBios m memMap).markedFrames.card ≤ s.markedFrames.card) :
    AccountsAgree memMap s := by
  have hn := totalFrames_lt memMap
  have hcard := card_markedFrames_add (h.last ▸ totalFrames_le_last memMap)
  have hfree := h.free
  rw [habove] at hcard
  have hfree' : getFreeMem s = pageBytes (s.clearFrames (totalFrames memMap)).card := by
    rw [← hcard, Nat.add_comm, pageBytes_add] at hfree
    exact add_right_cancel hfree
  have hused' : getUsedMem s = pageBytes
      (s.markedFrames.card - (afterReserveBios m memMap).markedFrames.card) :=
    eq_pageBytes_sub h.used hmono
  have hreserved' : getReservedMem s = pageBytes
      ((afterReserveBios m memMap).markedFrames.card -
        (afterInitBitmap m memMap).markedFrames.card) :=
    eq_pageBytes_sub h.reserved hleft
  constructor
  · rw [hfree', toNat_pageBytes (by omega)]
  · rw [hfree', hused', hreserved', totalMem_eq, toNat_pageBytes (by omega),
      toNat_pageBytes (by omega), toNat_pageBytes (by omega), toNat_pageBytes hn]
    omega

/-- When the counters agree with the marks, the marks above the map are as many as the
bits left over, and no more of these were left over than were marked before the lock. -/
theorem Ledger.of_accountsAgree {s : Kernel} (h : Ledger m memMap s)
    (hagree : AccountsAgree memMap s)
    (hmono : (afterReserveBios m memMap).markedFrames.card ≤ s.markedFrames.card)
    (hnew : s.markedFrames.card < (afterReserveBios m memMap).markedFrames.card + 2 ^ 52)
    (hold : (afterInitBitmap m memMap).markedFrames.card < 2 ^ 52)
    (hspare : (s.markedAbove (totalFrames memMap)).card < 2 ^ 52) :
    (s.markedAbove (totalFrames memMap)).card = (afterInitBitmap m memMap).markedFrames.card ∧
      (afterInitBitmap m memMap).markedFrames.card ≤
        (afterReserveBios m memMap).markedFrames.card := by
  have hn := totalFrames_lt memMap
  have hcard := card_markedFrames_add (h.last ▸ totalFrames_le_last memMap)
  have hclear : (s.clearFrames (totalFrames memMap)).card ≤ totalFrames memMap := by
    have hle := (Finset.range (totalFrames memMap)).card_filter_le fun k => s.marked k = false
    rwa [Finset.card_range] at hle
  have hfree := h.free
  have hreserved := h.reserved
  -- the free counter fixes the marks above the map, as both numbers are small
  have hfree' : getFreeMem s = pageBytes (s.clearFrames (totalFrames memMap)).card := by
    apply BitVec.eq_of_toNat_eq
    rw [hagree.free, toNat_pageBytes (by omega)]
  have hfree'' : s.alloc.freeMemory = pageBytes (s.clearFrames (totalFrames memMap)).card := hfree'
  rw [hfree'', ← pageBytes_add, Nat.add_comm, hcard, pageBytes_add, pageBytes_add] at hfree
  have habove : (s.markedAbove (totalFrames memMap)).card =
      (afterInitBitmap m memMap).markedFrames.card := by
    have hnat := congrArg BitVec.toNat (add_left_cancel hfree)
    rw [toNat_pageBytes hspare, toNat_pageBytes hold] at hnat
    omega
  refine ⟨habove, ?_⟩
  have hused' : getUsedMem s = pageBytes
      (s.markedFrames.card - (afterReserveBios m memMap).markedFrames.card) :=
    eq_pageBytes_sub h.used hmono
  -- a reserved counter below zero is too large for the sum
  by_contra hlt
  have hwrap : getReservedMem s + pageBytes ((afterInitBitmap m memMap).markedFrames.card -
      (afterReserveBios m memMap).markedFrames.card) = 0 := by
    have hle : (afterReserveBios m memMap).markedFrames.card ≤
        (afterInitBitmap m memMap).markedFrames.card := by omega
    rw [← Nat.sub_add_cancel hle, pageBytes_add, ← add_assoc] at hreserved
    exact add_eq_right.mp hreserved
  have hnat := congrArg BitVec.toNat hwrap
  have hsum := hagree.sum
  have hlt64 := (getReservedMem s).isLt
  rw [BitVec.toNat_add, toNat_pageBytes (by omega), show (0 : BitVec 64).toNat = 0 by rfl] at hnat
  rw [hfree', hused', totalMem_eq, toNat_pageBytes (by omega), toNat_pageBytes (by omega),
    toNat_pageBytes hn] at hsum
  omega

/-! ## Runs -/

/-- The frames that an operation marked. -/
def newlyMarked (s s' : Kernel) : Set ℕ := {k | s.marked k = false ∧ s'.marked k = true}

/-- A run of requests, of locks of frames below `n`, and of frees of frames that a request
or a lock marked, with the set of these frames. -/
inductive AccountStep (n : ℕ) : Kernel × Set ℕ → Kernel × Set ℕ → Prop
  | requestPage (s : Kernel) (held : Set ℕ) :
      AccountStep n (s, held)
        ((EtaOs.requestPage s).2, held ∪ newlyMarked s (EtaOs.requestPage s).2)
  | lockPage (s : Kernel) (held : Set ℕ) (addr : BitVec 64) (h : frameIndex addr < n) :
      AccountStep n (s, held)
        (EtaOs.lockPage s addr, held ∪ newlyMarked s (EtaOs.lockPage s addr))
  | lockPages (s : Kernel) (held : Set ℕ) (addr pageCount : BitVec 64)
      (h : ∀ k, LoopFrames addr pageCount k → k < n) :
      AccountStep n (s, held) (EtaOs.lockPages s addr pageCount,
        held ∪ newlyMarked s (EtaOs.lockPages s addr pageCount))
  | freePage (s : Kernel) (held : Set ℕ) (addr : BitVec 64) (h : frameIndex addr ∈ held) :
      AccountStep n (s, held) (EtaOs.freePage s addr, held \ {frameIndex addr})
  | freePages (s : Kernel) (held : Set ℕ) (addr pageCount : BitVec 64)
      (h : ∀ k, LoopFrames addr pageCount k → k ∈ held) :
      AccountStep n (s, held)
        (EtaOs.freePages s addr pageCount, held \ {k | LoopFrames addr pageCount k})

/-- The accounting is exact in every state that a run reaches. -/
def AccountsExact (m : Mem) (memMap : List EfiMemoryDescriptor) : Prop :=
  ∀ c, ReflTransGen (AccountStep (totalFrames memMap))
      (readEfiMemoryMap (bootKernel m) memMap, ∅) c → AccountsAgree memMap c.1

/-- The condition on the input: the initialisation marks as many frames above the map as
it finds bits left over, and it marks at least as many frames before the lock. -/
structure SpareMarksCancel (m : Mem) (memMap : List EfiMemoryDescriptor) : Prop where
  above : {k | k ≤ (initialBitmap memMap).last ∧ totalFrames memMap ≤ k ∧
      InitMarked m memMap k}.ncard =
    {k | k ≤ (initialBitmap memMap).last ∧ LeftOver m memMap k}.ncard
  left : {k | k ≤ (initialBitmap memMap).last ∧ LeftOver m memMap k}.ncard ≤
    {k | k ≤ (initialBitmap memMap).last ∧ MarkedBeforeLock m memMap k}.ncard

theorem card_afterInitBitmap : (afterInitBitmap m memMap).markedFrames.card =
    {k | k ≤ (initialBitmap memMap).last ∧ LeftOver m memMap k}.ncard := by
  have hlast : (afterInitBitmap m memMap).last = (initialBitmap memMap).last := by
    rw [Machine.last, afterInitBitmap_pageBitmap]
  rw [card_markedFrames fun k hk => marked_afterInitBitmap m memMap (hlast ▸ hk), hlast]

theorem card_afterReserveBios : (afterReserveBios m memMap).markedFrames.card =
    {k | k ≤ (initialBitmap memMap).last ∧ MarkedBeforeLock m memMap k}.ncard := by
  have hlast : (afterReserveBios m memMap).last = (initialBitmap memMap).last := by
    rw [(keeps_init m memMap).last, Machine.last, afterInitBitmap_pageBitmap]
  rw [card_markedFrames fun k hk => marked_afterReserveBios (hlast ▸ hk), hlast]

/-- The marks above the map of a state that has those of the initialisation there. -/
theorem card_markedAbove {s : Kernel} (hlast : s.last = (initialBitmap memMap).last)
    (h : ∀ k ≤ s.last, totalFrames memMap ≤ k → (s.marked k = true ↔ InitMarked m memMap k)) :
    (s.markedAbove (totalFrames memMap)).card = {k | k ≤ (initialBitmap memMap).last ∧
      totalFrames memMap ≤ k ∧ InitMarked m memMap k}.ncard := by
  rw [← Set.ncard_coe_finset]
  congr 1
  ext k
  rw [Finset.mem_coe, Machine.markedAbove, Finset.mem_filter, Machine.mem_markedFrames,
    Set.mem_ofPred_eq, ← hlast]
  constructor
  · rintro ⟨⟨hk, hm⟩, hn⟩
    exact ⟨hk, hn, (h k hk hn).mp hm⟩
  · rintro ⟨hk, hn, hm⟩
    exact ⟨⟨hk, (h k hk hn).mpr hm⟩, hn⟩

/-- The invariant of a run: the counters are booked, the marks of the initialisation
stay, and no other frame above the map is marked. -/
structure AccountInv (m : Mem) (memMap : List EfiMemoryDescriptor) (c : Kernel × Set ℕ) :
    Prop where
  hint : HintInv c.1
  bitmap : c.1.alloc.pageBitmap = initialBitmap memMap
  books : Books .used (afterReserveBios m memMap) c.1
  kept : ∀ k ≤ (initialBitmap memMap).last, InitMarked m memMap k →
    c.1.marked k = true ∧ k ∉ c.2
  above : ∀ k ≤ (initialBitmap memMap).last, totalFrames memMap ≤ k → c.1.marked k = true →
    InitMarked m memMap k

namespace AccountInv

theorem init : AccountInv m memMap (readEfiMemoryMap (bootKernel m) memMap, ∅) where
  hint := hintInv_readEfiMemoryMap
  bitmap := readEfiMemoryMap_pageBitmap m memMap
  books := books_readEfiMemoryMap m memMap
  kept := fun _ hk hm => ⟨(marked_readEfiMemoryMap hk).mpr hm, Set.notMem_empty _⟩
  above := fun _ hk _ hm => (marked_readEfiMemoryMap hk).mp hm

theorem last {c : Kernel × Set ℕ} (h : AccountInv m memMap c) :
    c.1.last = (initialBitmap memMap).last := by
  rw [Machine.last, h.bitmap]

/-- A step that marks the frames of `F`, which are frames of the map. -/
theorem of_take {s s' : Kernel} {held : Set ℕ} (h : AccountInv m memMap (s, held))
    (hhint : HintInv s') (hkeeps : Keeps s s') (hbooks : Books .used s s') {F : ℕ → Prop}
    (hmark : ∀ k ≤ s.last, s'.marked k = true ↔ s.marked k = true ∨ F k)
    (hF : ∀ k ≤ s.last, totalFrames memMap ≤ k → F k → InitMarked m memMap k) :
    AccountInv m memMap (s', held ∪ newlyMarked s s') where
  hint := hhint
  bitmap := hkeeps.pageBitmap.trans h.bitmap
  books := h.books.trans hbooks
  kept := by
    intro k hk hm
    obtain ⟨hmarked, hnot⟩ := h.kept k hk hm
    refine ⟨(hmark k (h.last ▸ hk)).mpr (Or.inl hmarked), ?_⟩
    rintro (hheld | ⟨hfree, -⟩)
    · exact hnot hheld
    · rw [hmarked] at hfree
      exact Bool.noConfusion hfree
  above := by
    intro k hk hn hm
    rcases (hmark k (h.last ▸ hk)).mp hm with hm | hm
    · exact h.above k hk hn hm
    · exact hF k (h.last ▸ hk) hn hm

/-- A step that unmarks the frames of `F`, which are held. -/
theorem of_give {s s' : Kernel} {held : Set ℕ} (h : AccountInv m memMap (s, held))
    (hhint : HintInv s') (hkeeps : Keeps s s') (hbooks : Books .used s s') {F : Set ℕ}
    (hmark : ∀ k ≤ s.last, s'.marked k = true ↔ s.marked k = true ∧ k ∉ F) (hF : F ⊆ held) :
    AccountInv m memMap (s', held \ F) where
  hint := hhint
  bitmap := hkeeps.pageBitmap.trans h.bitmap
  books := h.books.trans hbooks
  kept := by
    intro k hk hm
    obtain ⟨hmarked, hnot⟩ := h.kept k hk hm
    exact ⟨(hmark k (h.last ▸ hk)).mpr ⟨hmarked, fun hk' => hnot (hF hk')⟩, fun hk' => hnot hk'.1⟩
  above := fun k hk hn hm => h.above k hk hn ((hmark k (h.last ▸ hk)).mp hm).1

theorem step {c c' : Kernel × Set ℕ} (hstep : AccountStep (totalFrames memMap) c c')
    (h : AccountInv m memMap c) : AccountInv m memMap c' := by
  have htake : ∀ (t : Kernel) a, HintInv t → HintInv (takePage .used t a) :=
    fun t a ht => ht.takePage .used a
  have hgive : ∀ (t : Kernel) a, HintInv t → HintInv (givePage .used t a) :=
    fun t a ht => ht.givePage .used a
  cases hstep with
  | requestPage s held =>
      refine h.of_take h.hint.requestPage (keeps_requestPage s) (Books.requestPage h.hint)
        (fun k hk => marked_requestPage h.hint hk) ?_
      -- a request reaches a frame above the map only when the map is empty
      rintro k hk hn ⟨-, hframe⟩
      change frameIndex (EtaOs.requestPage s).1 = k at hframe
      refine Or.inr (Or.inl ?_)
      have hsize := initialBitmap_size memMap
      have hlast := initialBitmap_last memMap
      have hbitmap : s.last = (initialBitmap memMap).last := h.last
      rcases requestPage_cases h.hint with ⟨i, hi, -, -, heq⟩ | ⟨-, heq⟩
      · have hi' : i.toNat < (initialBitmap memMap).size.toNat := by
          rw [← h.bitmap]
          exact hi
        have hfi : frameIndex (EtaOs.requestPage s).1 = i.toNat := by
          have := initialBitmap_size_lt memMap
          rw [heq]
          exact frameIndex_mul (by omega)
        omega
      · have hfi : frameIndex (EtaOs.requestPage s).1 = 0 := by
          rw [heq]
          simp [frameIndex]
        omega
  | lockPage s held addr hlt =>
      refine h.of_take (htake s addr h.hint) (keeps_takePage .used s addr)
        (Books.takePage .used s addr) (fun k hk => marked_takePage hk) ?_
      rintro k - hn rfl
      omega
  | lockPages s held addr pageCount hlt =>
      refine h.of_take (h.hint.forPages htake addr pageCount)
        (keeps_forPages (keeps_takePage .used) s addr pageCount)
        (Books.forPages (Books.takePage .used) s addr pageCount)
        (fun k hk => marked_forPages_takePage hk) ?_
      intro k _ hn hloop
      have := hlt k hloop
      omega
  | freePage s held addr hheld =>
      refine h.of_give (hgive s addr h.hint) (keeps_givePage .used s addr)
        (Books.givePage .used s addr) (fun k hk => ?_) (Set.singleton_subset_iff.mpr hheld)
      refine (marked_givePage hk).trans ?_
      rw [Set.mem_singleton_iff, ne_comm]
  | freePages s held addr pageCount hheld =>
      exact h.of_give (h.hint.forPages hgive addr pageCount)
        (keeps_forPages (keeps_givePage .used) s addr pageCount)
        (Books.forPages (Books.givePage .used) s addr pageCount)
        (fun k hk => marked_forPages_givePage hk) hheld

/-- The frames marked before the lock are still marked. -/
theorem card_le {c : Kernel × Set ℕ} (h : AccountInv m memMap c) :
    (afterReserveBios m memMap).markedFrames.card ≤ c.1.markedFrames.card := by
  have hlast : (afterReserveBios m memMap).last = (initialBitmap memMap).last := by
    rw [(keeps_init m memMap).last, Machine.last, afterInitBitmap_pageBitmap]
  refine Finset.card_le_card fun k hk => ?_
  rw [Machine.mem_markedFrames, hlast] at hk
  rw [Machine.mem_markedFrames, h.last]
  refine ⟨hk.1, (h.kept k hk.1 ?_).1⟩
  rcases (marked_afterReserveBios hk.1).mp hk.2 with hm | hm
  · exact Or.inl hm
  · exact Or.inr (Or.inl hm)

theorem card_above {c : Kernel × Set ℕ} (h : AccountInv m memMap c) :
    (c.1.markedAbove (totalFrames memMap)).card = {k | k ≤ (initialBitmap memMap).last ∧
      totalFrames memMap ≤ k ∧ InitMarked m memMap k}.ncard :=
  card_markedAbove h.last fun k hk hn =>
    ⟨h.above k (h.last ▸ hk) hn, fun hm => (h.kept k (h.last ▸ hk) hm).1⟩

end AccountInv

/-! ## When the accounting is exact -/

/-- Cancelling spare marks make the accounting exact. -/
theorem SpareMarksCancel.accountsExact (h : SpareMarksCancel m memMap) :
    AccountsExact m memMap := by
  intro c hrun
  have hinv := Runs.invariant (fun _ _ hstep hinv => AccountInv.step hstep hinv) hrun
    AccountInv.init
  refine (Ledger.of_books hinv.books).accountsAgree ?_ ?_ hinv.card_le
  · rw [hinv.card_above, card_afterInitBitmap, h.above]
  · rw [card_afterInitBitmap, card_afterReserveBios]
    exact h.left

/-- Sets of frames in a range. -/
theorem ncard_le_of_subset_Ico {S : Set ℕ} {a b : ℕ} (h : ∀ k ∈ S, a ≤ k ∧ k < b) :
    S.ncard ≤ b - a := by
  have hle := Set.ncard_le_ncard (t := (Finset.Ico a b : Set ℕ))
    (fun k hk => by rw [Finset.coe_Ico]; exact h k hk) (Finset.finite_toSet _)
  rwa [Set.ncard_coe_finset, Nat.card_Ico] at hle

/-- The accounting right after initialisation already fixes the spare marks. -/
theorem SpareMarksCancel.of_init
    (h : AccountsAgree memMap (readEfiMemoryMap (bootKernel m) memMap)) :
    SpareMarksCancel m memMap := by
  have hinv : AccountInv m memMap (readEfiMemoryMap (bootKernel m) memMap, ∅) := AccountInv.init
  have hn := totalFrames_lt memMap
  have hsize := initialBitmap_size memMap
  have hlast := initialBitmap_last memMap
  have hold : (afterInitBitmap m memMap).markedFrames.card < 2 ^ 52 := by
    rw [card_afterInitBitmap]
    have hle := ncard_le_of_subset_Ico
      (S := {k | k ≤ (initialBitmap memMap).last ∧ LeftOver m memMap k})
      (a := 8 * min (initialBitmap memMap).size.toNat (2 ^ 31))
      (b := (initialBitmap memMap).last + 1) (by
        rintro k ⟨hk, -, hleft⟩
        omega)
    omega
  have hspare : ((readEfiMemoryMap (bootKernel m) memMap).markedAbove
      (totalFrames memMap)).card < 2 ^ 52 := by
    rw [hinv.card_above]
    have hle := ncard_le_of_subset_Ico
      (S := {k | k ≤ (initialBitmap memMap).last ∧ totalFrames memMap ≤ k ∧
        InitMarked m memMap k})
      (a := totalFrames memMap) (b := (initialBitmap memMap).last + 1) (by
        rintro k ⟨hk, hge, -⟩
        omega)
    omega
  have hnew : (readEfiMemoryMap (bootKernel m) memMap).markedFrames.card <
      (afterReserveBios m memMap).markedFrames.card + 2 ^ 52 := by
    have hall : (readEfiMemoryMap (bootKernel m) memMap).markedFrames.card ≤
        (initialBitmap memMap).last + 1 := by
      have hle := (Finset.range ((readEfiMemoryMap (bootKernel m) memMap).last + 1)).card_filter_le
        fun k => (readEfiMemoryMap (bootKernel m) memMap).marked k = true
      rw [Finset.card_range] at hle
      refine hle.trans ?_
      rw [hinv.last]
    -- the low megabyte is marked before the lock
    have hlow : (Finset.range (min 0x100 ((initialBitmap memMap).last + 1))).card ≤
        (afterReserveBios m memMap).markedFrames.card := by
      have hlast' : (afterReserveBios m memMap).last = (initialBitmap memMap).last := by
        rw [(keeps_init m memMap).last, Machine.last, afterInitBitmap_pageBitmap]
      refine Finset.card_le_card fun k hk => ?_
      rw [Finset.mem_range] at hk
      rw [Machine.mem_markedFrames, hlast', marked_afterReserveBios (by omega)]
      exact ⟨by omega, Or.inr (by omega)⟩
    rw [Finset.card_range] at hlow
    omega
  obtain ⟨habove, hleft⟩ := (Ledger.of_books hinv.books).of_accountsAgree h hinv.card_le hnew hold
    hspare
  rw [hinv.card_above, card_afterInitBitmap] at habove
  rw [card_afterInitBitmap, card_afterReserveBios] at hleft
  exact ⟨habove, hleft⟩

/-- **When the accounting is exact.** -/
theorem accounts_exact_iff (m : Mem) (memMap : List EfiMemoryDescriptor) :
    AccountsExact m memMap ↔ SpareMarksCancel m memMap :=
  ⟨fun h => SpareMarksCancel.of_init (h _ ReflTransGen.refl), SpareMarksCancel.accountsExact⟩

/-- From 2 GiB on the frame after the map is not reserved, and the accounting is exact,
when neither a conventional range nor the bitmap lies above the summed size. -/
theorem spareMarksCancel_of_large (hn : 2 ^ 19 ≤ totalFrames memMap)
    (hsize : (initialBitmap memMap).size.toNat < 2 ^ 31)
    (hrange : ∀ k ≤ (initialBitmap memMap).last, totalFrames memMap ≤ k →
      ¬ Released memMap k ∧ ¬ BitmapFrame memMap k) :
    SpareMarksCancel m memMap := by
  have hlast := initialBitmap_last memMap
  have hbytes := initialBitmap_size memMap
  have hleft : ∀ k ≤ (initialBitmap memMap).last, LeftOver m memMap k → totalFrames memMap ≤ k := by
    rintro k hk ⟨-, hnot⟩
    omega
  have hset : {k | k ≤ (initialBitmap memMap).last ∧ totalFrames memMap ≤ k ∧
        InitMarked m memMap k} =
      {k | k ≤ (initialBitmap memMap).last ∧ LeftOver m memMap k} := by
    ext k
    constructor
    · rintro ⟨hk, hge, (⟨hmark, -⟩ | hlow | hbit)⟩
      · refine ⟨hk, hmark.resolve_right fun hswept => ?_⟩
        exact absurd ((loopFrames_zero_iff (by omega)).mp hswept).2 (by omega)
      · omega
      · exact absurd hbit (hrange k hk hge).2
    · rintro ⟨hk, hl⟩
      have hge := hleft k hk hl
      exact ⟨hk, hge, Or.inl ⟨Or.inl hl, (hrange k hk hge).1⟩⟩
  refine ⟨by rw [hset], ?_⟩
  refine Set.ncard_le_ncard ?_ ((Finset.range _).finite_toSet.subset fun k hk =>
    Finset.mem_coe.mpr (Finset.mem_range_succ_iff.mpr hk.1))
  rintro k ⟨hk, hl⟩
  exact ⟨hk, Or.inl ⟨Or.inl hl, (hrange k hk (hleft k hk hl)).1⟩⟩

/-- With two megabytes frame 512 is reserved though the map has frames 0 to 511 only, and
the free counter is a page short. -/
theorem accounts_inexact : ¬ ∀ (m : Mem) (memMap : List EfiMemoryDescriptor),
    AccountsExact m memMap := by
  intro h
  have hspare := SpareMarksCancel.of_init (h (fun _ => 0) twoMegabytes _ ReflTransGen.refl)
  have hnone : {k | k ≤ (initialBitmap twoMegabytes).last ∧
      LeftOver (fun _ => 0) twoMegabytes k} = ∅ := by
    ext k
    simp [LeftOver, Bitmap.marked]
  have habove := hspare.above
  rw [hnone, Set.ncard_empty, Set.ncard_eq_zero ((Finset.range _).finite_toSet.subset fun k hk =>
    Finset.mem_coe.mpr (Finset.mem_range_succ_iff.mpr hk.1))]
    at habove
  have hmem : 512 ∈ {k | k ≤ (initialBitmap twoMegabytes).last ∧ totalFrames twoMegabytes ≤ k ∧
      InitMarked (fun _ => 0) twoMegabytes k} := by
    refine ⟨?_, ?_, (initMarked_twoMegabytes _ (by omega)).mpr (Or.inr rfl)⟩
    · rw [initialBitmap_twoMegabytes]
      decide
    · have htotal : totalMem twoMegabytes = 0x200000 := by decide +kernel
      rw [totalFrames, htotal]
      decide
  rw [habove] at hmem
  exact hmem

end EtaOs
