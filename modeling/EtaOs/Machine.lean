import EtaOs.Paging.Entry

/-!
# The machine

The kernel runs on one flat physical memory.  Until `mov cr3` the firmware's identity
mapping is in force and a pointer is a physical address; afterwards every access goes
through the four-level walk of the tables at `cr3`, and an access to a page that is
not present is a page fault, whose handler never returns.

The state keeps the calls of `request_page` made by the paging and heap code, each
with the frame it returned and the memory before and after it.  Nothing reads this
record; it is there to state what a run was given.

* `Machine.phys`: the physical address of a pointer.
* `Machine.load8`, `Machine.load64`, `Machine.store8`, `Machine.store64`, `memset`: accesses
  through a pointer.
* `FrameSource`, `Machine.requestFrame`: a source of page frames, and one recorded call, which
  reads and writes its bitmap through pointers as well and may fault.
-/

namespace EtaOs

open ByteMemory RadixTree

/-- A call of `request_page`: the frame it returned, and memory before and after. -/
structure Request where
  before : Mem
  frame : BitVec 64
  after : Mem

/-- The machine: physical memory, the paging register, the record of the calls of
`request_page`, and the state of the frame allocator. -/
structure Machine (σ : Type) where
  mem : Mem
  cr3 : Option (BitVec 64)
  requests : List Request
  alloc : σ

/-- A source of page frames: `request_page`, which leaves paging alone.  A call ends in a page
fault where `faults` says so, and otherwise returns what `request` says.  Before paging no call
faults. -/
structure FrameSource (σ : Type) where
  request : Machine σ → BitVec 64 × Machine σ
  faults : Machine σ → Bool
  cr3 : ∀ s, (request s).2.cr3 = s.cr3
  requests : ∀ s, (request s).2.requests = s.requests
  noFault : ∀ s, s.cr3 = none → faults s = false

variable {σ : Type}

namespace Machine

/-- The physical address a pointer denotes, or none on a page fault. -/
def phys (s : Machine σ) (a : BitVec 64) : Option (BitVec 64) :=
  match s.cr3 with
  | none => some a
  | some root => (walk s.mem root a).map fun f => f + (a &&& 0xfff)

/-- An eight-byte load through a pointer. -/
def load64 (s : Machine σ) (a : BitVec 64) : Option (BitVec 64) :=
  (s.phys a).map fun p => ByteMemory.load64 s.mem p

/-- A one-byte load through a pointer. -/
def load8 (s : Machine σ) (a : BitVec 64) : Option (BitVec 8) := (s.phys a).map s.mem

/-- A one-byte store through a pointer. -/
def store8 (s : Machine σ) (a : BitVec 64) (v : BitVec 8) : Option (Machine σ) :=
  (s.phys a).map fun p => { s with mem := ByteMemory.store8 s.mem p v }

/-- An eight-byte store through a pointer. -/
def store64 (s : Machine σ) (a v : BitVec 64) : Option (Machine σ) :=
  (s.phys a).map fun p => { s with mem := ByteMemory.store64 s.mem p v }

/-- What a call of `request_page` that returns leaves, with the call on the record. -/
def takeFrame (source : FrameSource σ) (s : Machine σ) : BitVec 64 × Machine σ :=
  let r := source.request s
  (r.1, { r.2 with requests := ⟨s.mem, r.1, r.2.mem⟩ :: r.2.requests })

/-- A call of `request_page`. -/
def requestFrame (source : FrameSource σ) (s : Machine σ) : Option (BitVec 64 × Machine σ) :=
  if source.faults s then none else some (s.takeFrame source)

/-- A pointer that denotes the physical address of the same number. -/
def Direct (s : Machine σ) (a : BitVec 64) : Prop := s.phys a = some a

end Machine

/-- The first `n` iterations of the loop of `memset`. -/
def memsetLoop (start : BitVec 64) (value : BitVec 8) : ℕ → Machine σ → Option (Machine σ)
  | 0, s => some s
  | n + 1, s =>
      (memsetLoop start value n s).bind fun s => s.store8 (start + BitVec.ofNat 64 n) value

/-- `memset`. -/
def memset (s : Machine σ) (start : BitVec 64) (value : BitVec 8) (num : BitVec 64) :
    Option (Machine σ) :=
  memsetLoop start value num.toNat s

/-! ## Direct pointers -/

namespace Machine

theorem direct_of_cr3_none {s : Machine σ} (h : s.cr3 = none) (a : BitVec 64) : s.Direct a := by
  rw [Direct, phys, h]

theorem Direct.load64 {s : Machine σ} {a : BitVec 64} (h : s.Direct a) :
    s.load64 a = some (ByteMemory.load64 s.mem a) := by
  rw [Machine.load64, h, Option.map_some]

theorem Direct.store8 {s : Machine σ} {a : BitVec 64} (h : s.Direct a) (v : BitVec 8) :
    s.store8 a v = some { s with mem := ByteMemory.store8 s.mem a v } := by
  rw [Machine.store8, h, Option.map_some]

theorem Direct.store64 {s : Machine σ} {a : BitVec 64} (h : s.Direct a) (v : BitVec 64) :
    s.store64 a v = some { s with mem := ByteMemory.store64 s.mem a v } := by
  rw [Machine.store64, h, Option.map_some]

@[simp] theorem takeFrame_fst (source : FrameSource σ) (s : Machine σ) :
    (s.takeFrame source).1 = (source.request s).1 := rfl

@[simp] theorem takeFrame_mem (source : FrameSource σ) (s : Machine σ) :
    (s.takeFrame source).2.mem = (source.request s).2.mem := rfl

@[simp] theorem takeFrame_cr3 (source : FrameSource σ) (s : Machine σ) :
    (s.takeFrame source).2.cr3 = s.cr3 := source.cr3 s

@[simp] theorem takeFrame_alloc (source : FrameSource σ) (s : Machine σ) :
    (s.takeFrame source).2.alloc = (source.request s).2.alloc := rfl

/-- A call that returns. -/
theorem requestFrame_of_returns {source : FrameSource σ} {s : Machine σ}
    (h : source.faults s = false) : s.requestFrame source = some (s.takeFrame source) := by
  rw [requestFrame, if_neg (ne_true_of_eq_false h)]

theorem requestFrame_eq_some {source : FrameSource σ} {s : Machine σ} {r : BitVec 64 × Machine σ}
    (h : s.requestFrame source = some r) : r = s.takeFrame source := by
  rw [requestFrame] at h
  split at h
  next => exact absurd h.symm (Option.some_ne_none r)
  next => exact (Option.some.inj h).symm

theorem takeFrame_requests (source : FrameSource σ) (s : Machine σ) :
    (s.takeFrame source).2.requests =
      ⟨s.mem, (source.request s).1, (source.request s).2.mem⟩ :: s.requests := by
  rw [takeFrame, source.requests]

end Machine

/-! ## The walk reads the tables only -/

/-- Entries of one table lie inside it. -/
theorem entryAddr_sub (t : BitVec 64) (i : BitVec 9) : (entryAddr t i - t).toNat = 8 * i.toNat := by
  have hi := i.isLt
  have h : entryAddr t i - t = 8 * i.setWidth 64 := by
    rw [entryAddr, BitVec.add_comm, BitVec.add_sub_cancel]
  rw [h, BitVec.toNat_mul, BitVec.toNat_setWidth]
  simp only [BitVec.ofNat_eq_ofNat, BitVec.toNat_ofNat]
  omega

theorem edge_congr {m m' : Mem} {t : BitVec 64} (h : SameOn t 4096 m m') (i : BitVec 9) :
    edge m' t i = edge m t i := by
  have hi := i.isLt
  have hload : ByteMemory.load64 m' (entryAddr t i) = ByteMemory.load64 m (entryAddr t i) :=
    load64_congr (h.mono (by rw [entryAddr_sub]; omega))
  rw [edge, edge, hload]

/-- Memories that agree on the tables of a tree have the same paths of length at most
four. -/
theorem descend_congr {m m' : Mem} {root : BitVec 64}
    (h : ∀ t, Table m root t → SameOn t 4096 m m') (p : List (BitVec 9)) (hp : p.length ≤ 4) :
    descend (edge m') root p = descend (edge m) root p := by
  induction p using List.reverseRecOn with
  | nil => rw [descend_nil, descend_nil]
  | append_singleton p i ih =>
      rw [List.length_append, List.length_singleton] at hp
      rw [descend_snoc, descend_snoc, ih (by omega)]
      cases hu : descend (edge m) root p with
      | none => rw [Option.bind_none, Option.bind_none]
      | some u =>
          rw [Option.bind_some, Option.bind_some]
          exact edge_congr (h u ⟨p, by omega, hu⟩) i

theorem walk_congr {m m' : Mem} {root : BitVec 64}
    (h : ∀ t, Table m root t → SameOn t 4096 m m') (w : BitVec 64) :
    walk m' root w = walk m root w :=
  descend_congr h (pathOf w) (by simp [pathOf])

theorem table_congr {m m' : Mem} {root : BitVec 64}
    (h : ∀ t, Table m root t → SameOn t 4096 m m') (t : BitVec 64) :
    Table m' root t ↔ Table m root t := by
  refine exists_congr fun p => and_congr_right fun hp => ?_
  rw [descend_congr h p (by omega)]

/-- What the page tables say about a machine does not change when its tables do not. -/
theorem Machine.phys_congr {s s' : Machine σ} (hcr3 : s'.cr3 = s.cr3)
    (h : ∀ root, s.cr3 = some root → ∀ t, Table s.mem root t → SameOn t 4096 s.mem s'.mem)
    (a : BitVec 64) : s'.phys a = s.phys a := by
  rw [phys, phys, hcr3]
  cases hroot : s.cr3 with
  | none => rfl
  | some root => simp only [walk_congr (h root hroot)]

/-- A direct pointer stays one when the tables stay. -/
theorem Machine.Direct.congr {s s' : Machine σ} {a : BitVec 64} (h : s.Direct a)
    (hcr3 : s'.cr3 = s.cr3)
    (hsame : ∀ root, s.cr3 = some root → ∀ t, Table s.mem root t → SameOn t 4096 s.mem s'.mem) :
    s'.Direct a :=
  (Machine.phys_congr hcr3 hsame a).trans h

/-- `memset` fills the range when every byte of it is reached at its own address in its turn. -/
theorem memsetLoop_of_direct {s : Machine σ} {a : BitVec 64} {v : BitVec 8} {n : ℕ}
    (hn : n ≤ 2 ^ 64)
    (hdirect : ∀ i < n, Machine.Direct { s with mem := fill s.mem a i v } (a + BitVec.ofNat 64 i)) :
    memsetLoop a v n s = some { s with mem := fill s.mem a n v } := by
  induction n with
  | zero =>
      have hfill : fill s.mem a 0 v = s.mem := by
        funext x
        simp [fill]
      rw [hfill]
      rfl
  | succ n ih =>
      rw [memsetLoop, ih (by omega) (fun i hi => hdirect i (by omega)), Option.bind_some,
        (hdirect n (by omega)).store8]
      congr 2
      funext x
      simp only [ByteMemory.store8, fill]
      by_cases heq : x = a + BitVec.ofNat 64 n
      · have hlt : (x - a).toNat < n + 1 := by subst heq; bv_omega
        rw [if_pos heq, if_pos hlt]
      · have hiff : (x - a).toNat < n + 1 ↔ (x - a).toNat < n := by bv_omega
        rw [if_neg heq]
        simp only [hiff]

/-- `memset` through direct pointers to bytes outside the tables fills the range. -/
theorem memsetLoop_eq_fill {s : Machine σ} {a : BitVec 64} {v : BitVec 8} {n : ℕ}
    (hn : n ≤ 2 ^ 64) (hdirect : ∀ i < n, s.Direct (a + BitVec.ofNat 64 i))
    (hapart : ∀ root, s.cr3 = some root → ∀ t, Table s.mem root t → Apart a n t 4096) :
    memsetLoop a v n s = some { s with mem := fill s.mem a n v } := by
  refine memsetLoop_of_direct hn fun i hi => (hdirect i hi).congr rfl fun root hroot t ht => ?_
  -- the bytes filled so far lie in no table
  obtain ⟨h1, h2⟩ := hapart root hroot t ht
  exact sameOn_fill v ⟨by omega, by omega⟩

end EtaOs
