import Mathlib.Data.List.Chain
import Mathlib.Logic.Relation

/-!
# Doubly linked lists

The nodes of a doubly linked list, seen through its two link fields `next` and `prev`.  The
link past either end is a value that the caller chooses, usually a null pointer.

The list itself is a list of Lean, and the two fields are functions of the nodes, so that the
fields may live anywhere: in a memory, in a record, in a table.  A change that leaves the fields of
all nodes alone leaves the list.

* `Linked`: the nodes of a list follow one another in both directions.
* `Linked.congr`: links are kept by whatever leaves the link fields alone.
* `Linked.insert`: a node is linked in behind another one.
* `Reached`, `Linked.reached_iff`: the nodes met from the first one are those of the list.
* `Linked.prev_next`, `Linked.next_prev`: the two fields are inverse to one another.
-/

namespace LinkedList

open Relation

variable {α : Type*} {next prev next' prev' : α → α} {p e x y : α} {l r : List α}

/-- The nodes of the list follow one another.  The first is linked back to `p` and the last
is linked to `e`. -/
def Linked (next prev : α → α) : α → List α → α → Prop
  | _, [], _ => True
  | p, x :: l, e => prev x = p ∧ next x = l.headD e ∧ Linked next prev x l e

/-- The nodes met from `x` by following `next` until it is `e`. -/
def Reached (next : α → α) (e x : α) : α → Prop :=
  ReflTransGen (fun y z => next y = z ∧ z ≠ e) x

@[simp] theorem linked_nil : Linked next prev p [] e := trivial

@[simp] theorem linked_cons :
    Linked next prev p (x :: l) e ↔ prev x = p ∧ next x = l.headD e ∧ Linked next prev x l e :=
  Iff.rfl

/-- Both halves of a linked list, and the seam. -/
theorem linked_append : Linked next prev p (l ++ r) e ↔
    Linked next prev p l (r.headD e) ∧ Linked next prev (l.getLastD p) r e := by
  induction l generalizing p with
  | nil => simp
  | cons x l ih =>
      have hhead : (l ++ r).headD e = l.headD (r.headD e) := by cases l <;> rfl
      rw [List.cons_append, linked_cons, linked_cons, hhead, ih, List.getLastD_cons, and_assoc,
        and_assoc]

/-- **Frame rule.**  The list depends on the links of its nodes only. -/
theorem Linked.congr (h : Linked next prev p l e)
    (hsame : ∀ x ∈ l, next' x = next x ∧ prev' x = prev x) : Linked next' prev' p l e := by
  induction l generalizing p with
  | nil => trivial
  | cons x l ih =>
      obtain ⟨hp, hn, hl⟩ := h
      obtain ⟨hnx, hpx⟩ := hsame x List.mem_cons_self
      exact ⟨hpx.trans hp, hnx.trans hn, ih hl fun y hy => hsame y (List.mem_cons_of_mem x hy)⟩

/-- **A node is linked in** behind `x`: it points to `x` and to the node behind it, and
these two point to it. -/
theorem Linked.insert (h : Linked next prev p (l ++ x :: r) e) (hxy : next' x = y)
    (hyx : prev' y = x) (hyn : next' y = next x) (hr : ∀ z ∈ r.head?, prev' z = y)
    (hnext : ∀ z ∈ l ++ r, next' z = next z) (hprev : ∀ z ∈ l ++ x :: r.tail, prev' z = prev z) :
    Linked next' prev' p (l ++ x :: y :: r) e := by
  rw [linked_append] at h ⊢
  obtain ⟨hl, hpx, hnx, hlr⟩ := h
  refine ⟨hl.congr fun z hz => ?_, ?_, hxy, hyx, hyn.trans hnx, ?_⟩
  · exact ⟨hnext z (List.mem_append_left _ hz), hprev z (List.mem_append_left _ hz)⟩
  · exact (hprev x (List.mem_append_right _ List.mem_cons_self)).trans hpx
  · cases r with
    | nil => trivial
    | cons z r =>
        obtain ⟨-, hnz, hrest⟩ := hlr
        have hz : z ∈ l ++ z :: r := List.mem_append_right _ List.mem_cons_self
        refine ⟨hr z rfl, (hnext z hz).trans hnz, hrest.congr fun w hw => ⟨hnext w ?_, hprev w ?_⟩⟩
        · exact List.mem_append_right _ (List.mem_cons_of_mem z hw)
        · exact List.mem_append_right _ (List.mem_cons_of_mem x hw)

/-! ## The nodes met from the first one -/

/-- The node behind a node of the list is a node of the list, unless it is the end. -/
theorem Linked.next_mem (h : Linked next prev p l e) (hy : y ∈ l) :
    next y = e ∨ next y ∈ l := by
  obtain ⟨s, t, rfl⟩ := List.append_of_mem hy
  obtain ⟨-, -, hn, -⟩ := linked_append.mp h
  cases t with
  | nil => exact Or.inl hn
  | cons z t =>
      right
      rw [hn]
      exact List.mem_append_right _ (List.mem_cons_of_mem y List.mem_cons_self)

/-- Every node of the list is met from the first one, whatever value the walk stops at. -/
theorem Linked.reached {v : α} (h : Linked next prev p (x :: l) e) (hv : v ∉ l) (hy : y ∈ x :: l) :
    Reached next v x y := by
  induction l generalizing p x with
  | nil =>
      obtain rfl := List.mem_singleton.mp hy
      exact ReflTransGen.refl
  | cons z l ih =>
      obtain ⟨-, hn, hl⟩ := h
      rcases List.mem_cons.mp hy with rfl | hy
      · exact ReflTransGen.refl
      · have hz : z ≠ v := fun hzv => hv (hzv ▸ List.mem_cons_self)
        exact ReflTransGen.head ⟨hn, hz⟩
          (ih hl (fun hvl => hv (List.mem_cons_of_mem z hvl)) hy)

/-- **The nodes met from the first one are those of the list.** -/
theorem Linked.reached_iff (h : Linked next prev p (x :: l) e) (he : e ∉ l) :
    Reached next e x y ↔ y ∈ x :: l := by
  refine ⟨fun hxy => ?_, h.reached he⟩
  induction hxy with
  | refl => exact List.mem_cons_self
  | tail _ hstep ih =>
      obtain ⟨rfl, hne⟩ := hstep
      exact (h.next_mem ih).resolve_left hne

/-- `prev` undoes `next`. -/
theorem Linked.prev_next (h : Linked next prev p l e) (hy : y ∈ l) (hne : next y ≠ e) :
    prev (next y) = y := by
  obtain ⟨s, t, rfl⟩ := List.append_of_mem hy
  obtain ⟨-, -, hn, hl⟩ := linked_append.mp h
  cases t with
  | nil => exact absurd hn hne
  | cons z t =>
      rw [hn]
      exact hl.1

/-- `next` undoes `prev`. -/
theorem Linked.next_prev (h : Linked next prev p l e) (hy : y ∈ l) (hne : prev y ≠ p) :
    prev y ∈ l ∧ next (prev y) = y := by
  obtain ⟨s, t, rfl⟩ := List.append_of_mem hy
  obtain ⟨hs, hpy, -⟩ := linked_append.mp h
  rcases List.eq_nil_or_concat s with rfl | ⟨s, z, rfl⟩
  · exact absurd hpy hne
  · rw [List.concat_eq_append] at hs hpy ⊢
    have hpz : prev y = z := by simpa using hpy
    have hz := (linked_append.mp hs).2
    rw [hpz]
    exact ⟨by simp, hz.2.1⟩

end LinkedList
