import Mathlib.Data.List.Induction

/-!
# Radix trees in a store of tables

A store of tables is an edge function `E : N → I → Option N`: the table or leaf that
entry `i` of table `t` points to, if any.  A path from the root reads one entry per
level.  The tables of depth at most `d` are the inner nodes; the nodes of depth
`d + 1` are leaves, which may be any values at all, tables included.

* `descend E t p`: the node at the end of the path `p` from `t`.
* `Separated E d root`: distinct paths of length at most `d` lead to distinct tables.
* `Link E E' d root pre t i f`: the store `E'` is `E` with entry `i` of the table `t`
  at the end of `pre` pointed at `f`, where `f` is an empty table unless the entry is
  a leaf entry.
* `Link.descend_eq`: linking changes the end of one path, `pre ++ [i]`, and of no
  other.
-/

namespace RadixTree

variable {N I : Type*} {E E' : N → I → Option N} {d : ℕ} {root t u f : N} {pre p q : List I} {i : I}

/-- The node at the end of a path. -/
def descend (E : N → I → Option N) : N → List I → Option N
  | t, [] => some t
  | t, i :: p => (E t i).bind fun u => descend E u p

@[simp] theorem descend_nil (E : N → I → Option N) (t : N) : descend E t [] = some t := rfl

@[simp] theorem descend_cons (E : N → I → Option N) (t : N) (i : I) (p : List I) :
    descend E t (i :: p) = (E t i).bind fun u => descend E u p := rfl

theorem descend_append (E : N → I → Option N) (t : N) (p q : List I) :
    descend E t (p ++ q) = (descend E t p).bind fun u => descend E u q := by
  induction p generalizing t with
  | nil => rfl
  | cons i p ih =>
      rw [List.cons_append, descend_cons, descend_cons]
      cases E t i with
      | none => rfl
      | some u => exact ih u

/-- The last step of a path. -/
theorem descend_snoc (E : N → I → Option N) (t : N) (p : List I) (i : I) :
    descend E t (p ++ [i]) = (descend E t p).bind fun u => E u i := by
  rw [descend_append]
  congr 1
  funext u
  cases h : E u i <;> simp [h]

/-- A table of the tree: the end of a path of length at most `d`. -/
def IsTable (E : N → I → Option N) (d : ℕ) (root t : N) : Prop :=
  ∃ p, p.length ≤ d ∧ descend E root p = some t

/-- Distinct paths of length at most `d` lead to distinct tables. -/
def Separated (E : N → I → Option N) (d : ℕ) (root : N) : Prop :=
  ∀ p q t, p.length ≤ d → q.length ≤ d →
    descend E root p = some t → descend E root q = some t → p = q

theorem isTable_root (E : N → I → Option N) (d : ℕ) (root : N) : IsTable E d root root :=
  ⟨[], Nat.zero_le d, rfl⟩

/-- A tree whose root has no entries has no other tables. -/
theorem isTable_of_root_empty (h : ∀ i, E root i = none) : IsTable E d root t ↔ t = root := by
  constructor
  · rintro ⟨p, -, hp⟩
    cases p with
    | nil => exact (Option.some.inj hp).symm
    | cons i p => simp [h i] at hp
  · rintro rfl
    exact isTable_root E d t

/-- A tree whose root has no entries is separated. -/
theorem separated_of_root_empty (h : ∀ i, E root i = none) : Separated E d root := by
  have hnil : ∀ (p : List I) (t : N), descend E root p = some t → p = [] := by
    intro p t hp
    cases p with
    | nil => rfl
    | cons i p => simp [h i] at hp
  intro p q t _ _ hp hq
  rw [hnil p t hp, hnil q t hq]

/-- The store `E'` is `E` with entry `i` of the table `t` at the end of `pre` pointed
at `f`.  Above the leaf level the entry was vacant and `f` is an empty table. -/
structure Link (E E' : N → I → Option N) (d : ℕ) (root : N) (pre : List I) (t : N) (i : I)
    (f : N) : Prop where
  reach : descend E root pre = some t
  depth : pre.length ≤ d
  edge : E' t i = some f
  other : ∀ u j, IsTable E d root u → u ≠ t ∨ j ≠ i → E' u j = E u j
  fresh : pre.length < d → E t i = none ∧ ∀ j, E' f j = none

/-- **Linking changes the end of one path.** -/
theorem Link.descend_eq [DecidableEq I] (h : Link E E' d root pre t i f)
    (hsep : Separated E d root) (q : List I) (hq : q.length ≤ d + 1) :
    descend E' root q = if q = pre ++ [i] then some f else descend E root q := by
  -- the induction is on the last step, so that the nodes before it are tables
  induction q using List.reverseRecOn with
  | nil => simp
  | append_singleton q j ih =>
      rw [List.length_append, List.length_singleton] at hq
      rw [descend_snoc, descend_snoc, ih (by omega)]
      by_cases hpre : q = pre ++ [i]
      · -- the path runs through the new table, which is empty
        have hlen : q.length = pre.length + 1 := by rw [hpre]; simp
        obtain ⟨hvacant, hempty⟩ := h.fresh (by omega)
        have hE : descend E root q = none := by
          rw [hpre, descend_snoc, h.reach]
          exact hvacant
        have hne : q ++ [j] ≠ pre ++ [i] := by
          intro heq
          have := congrArg List.length heq
          simp only [List.length_append, List.length_singleton] at this
          omega
        rw [if_pos hpre, if_neg hne, hE]
        exact hempty j
      · rw [if_neg hpre]
        cases hu : descend E root q with
        | none =>
            have hne : q ++ [j] ≠ pre ++ [i] := by
              intro heq
              rw [List.append_inj_left' heq rfl, h.reach] at hu
              exact Option.some_ne_none t hu
            rw [if_neg hne]
            rfl
        | some u =>
            show E' u j = if q ++ [j] = pre ++ [i] then some f else E u j
            by_cases hut : u = t ∧ j = i
            · obtain ⟨rfl, rfl⟩ := hut
              have hqpre : q = pre := hsep q pre u (by omega) h.depth hu h.reach
              rw [hqpre, if_pos rfl, h.edge]
            · have hne : q ++ [j] ≠ pre ++ [i] := by
                intro heq
                have hqpre : q = pre := List.append_inj_left' heq rfl
                have hji : j = i := by simpa using List.append_inj_right' heq rfl
                rw [hqpre, h.reach] at hu
                exact hut ⟨(Option.some.inj hu).symm, hji⟩
              rw [if_neg hne]
              exact h.other u j ⟨q, by omega, hu⟩ (not_and_or.mp hut)

/-- After linking at the leaf level the tables are the same, at the same paths. -/
theorem Link.descend_eq_of_leaf [DecidableEq I] (h : Link E E' d root pre t i f)
    (hsep : Separated E d root) (hleaf : pre.length = d) (hq : q.length ≤ d) :
    descend E' root q = descend E root q := by
  rw [h.descend_eq hsep q (by omega), if_neg]
  rintro rfl
  simp only [List.length_append, List.length_singleton] at hq
  omega

/-- The tables after linking: the old ones, and the new one above the leaf level. -/
theorem Link.isTable_iff [DecidableEq I] (h : Link E E' d root pre t i f)
    (hsep : Separated E d root) :
    IsTable E' d root u ↔ IsTable E d root u ∨ (pre.length < d ∧ u = f) := by
  constructor
  · rintro ⟨q, hq, hu⟩
    rw [h.descend_eq hsep q (by omega)] at hu
    split at hu
    next heq =>
      refine Or.inr ⟨?_, (Option.some.inj hu).symm⟩
      rw [heq, List.length_append, List.length_singleton] at hq
      omega
    next => exact Or.inl ⟨q, hq, hu⟩
  · rintro (⟨q, hq, hu⟩ | ⟨hlt, rfl⟩)
    · refine ⟨q, hq, ?_⟩
      rw [h.descend_eq hsep q (by omega), if_neg, hu]
      rintro rfl
      rw [List.length_append, List.length_singleton] at hq
      rw [descend_snoc, h.reach, Option.bind_some, (h.fresh (by omega)).1] at hu
      exact Option.some_ne_none u hu.symm
    · refine ⟨pre ++ [i], by simpa using Nat.succ_le_of_lt hlt, ?_⟩
      rw [h.descend_eq hsep _ (by simp; omega), if_pos rfl]

/-- **Linking keeps the tables apart**, when a table linked above the leaf level is
new to the tree. -/
theorem Link.separated [DecidableEq I] (h : Link E E' d root pre t i f)
    (hsep : Separated E d root) (hnew : pre.length < d → ¬ IsTable E d root f) :
    Separated E' d root := by
  have hold : ∀ q, q.length ≤ d → q = pre ++ [i] → pre.length < d := by
    rintro q hq rfl
    simpa using Nat.lt_of_succ_le (by simpa using hq)
  intro p q u hp hq hpu hqu
  rw [h.descend_eq hsep p (by omega)] at hpu
  rw [h.descend_eq hsep q (by omega)] at hqu
  split at hpu
  next hpe =>
    split at hqu
    next hqe => rw [hpe, hqe]
    next =>
      cases hpu
      exact absurd ⟨q, hq, hqu⟩ (hnew (hold p hp hpe))
  next =>
    split at hqu
    next hqe =>
      cases hqu
      exact absurd ⟨p, hp, hpu⟩ (hnew (hold q hq hqe))
    next => exact hsep p q u hp hq hpu hqu

end RadixTree
