/-
  Lib/ParentTree.lean --- walking in a tree from one node to another.

  A tree is given by the parent of each node and the list of its ancestors, the node itself
  first.  From another node on the way to `h` the next node is a child where that leads to `h`,
  and else the parent.  The nodes that are left behind on the way from `h` to `n` are the
  ancestors of `h` that are none of `n`, and those that are entered the ancestors of `n` that are
  none of `h`.
-/
import Mathlib.Data.List.Infix
import Mathlib.Data.List.Nodup

set_option autoImplicit false

/-- A tree, or a forest; a node is the first of its ancestors. -/
structure ParentTree (α : Type) where
  parent : α → Option α
  ancestors : α → List α
  ancestors_eq : ∀ n, ancestors n = n :: (parent n).elim [] ancestors

namespace ParentTree

variable {α : Type} (t : ParentTree α) {h m n p : α}

/-! ## Ancestors -/

theorem ancestors_parent (hp : t.parent n = some p) : t.ancestors n = n :: t.ancestors p := by
  rw [t.ancestors_eq, hp]
  rfl

theorem ancestors_root (hp : t.parent n = none) : t.ancestors n = [n] := by
  rw [t.ancestors_eq, hp]
  rfl

theorem mem_ancestors_self (n : α) : n ∈ t.ancestors n := by
  rw [t.ancestors_eq]
  exact List.mem_cons_self

/-- The ancestors of an ancestor are the end of the list. -/
theorem suffix_of_mem (h : m ∈ t.ancestors n) : t.ancestors m <:+ t.ancestors n := by
  induction hlen : (t.ancestors n).length using Nat.strongRecOn generalizing n with
  | ind k ih =>
    cases hp : t.parent n with
    | none =>
      rw [t.ancestors_root hp, List.mem_singleton] at h
      rw [h]
    | some p =>
      rw [t.ancestors_parent hp] at h hlen ⊢
      rcases List.mem_cons.mp h with rfl | h
      · rw [t.ancestors_parent hp]
      · rw [List.length_cons] at hlen
        exact (ih _ (by omega) h rfl).trans (List.suffix_cons n _)

/-- No node is its parent's ancestor. -/
theorem not_mem_ancestors_parent (hp : t.parent n = some p) : n ∉ t.ancestors p := by
  intro hmem
  have hle := (t.suffix_of_mem hmem).length_le
  rw [t.ancestors_parent hp, List.length_cons] at hle
  omega

theorem ancestors_nodup (n : α) : (t.ancestors n).Nodup := by
  induction hlen : (t.ancestors n).length using Nat.strongRecOn generalizing n with
  | ind k ih =>
    cases hp : t.parent n with
    | none =>
      rw [t.ancestors_root hp]
      exact List.nodup_singleton n
    | some p =>
      rw [t.ancestors_parent hp] at hlen ⊢
      rw [List.length_cons] at hlen
      exact List.nodup_cons.mpr ⟨t.not_mem_ancestors_parent hp, ih _ (by omega) p rfl⟩

/-- One node is the parent of the other. -/
def Adjacent (m n : α) : Prop := t.parent m = some n ∨ t.parent n = some m

theorem Adjacent.symm {t : ParentTree α} (h : t.Adjacent m n) : t.Adjacent n m := Or.symm h

theorem Adjacent.ne {t : ParentTree α} (h : t.Adjacent m n) : m ≠ n := by
  rintro rfl
  have hp : t.parent m = some m := h.elim id id
  exact t.not_mem_ancestors_parent hp (t.mem_ancestors_self m)

/-! ## The next node on the way -/

variable [DecidableEq α]

/-- The element in front of `n`. -/
def precedes (n : α) : List α → Option α
  | x :: y :: l => if y = n then some x else precedes n (y :: l)
  | _ => none

theorem precedes_eq_none {l : List α} (hn : n ∉ l.tail) : precedes n l = none := by
  induction l with
  | nil => rfl
  | cons x l ih =>
    cases l with
    | nil => rfl
    | cons y l =>
      rw [List.tail_cons, List.mem_cons, not_or] at hn
      rw [precedes, if_neg fun h => hn.1 h.symm, ih hn.2]

theorem precedes_append {front l : List α} (hnodup : (front ++ m :: n :: l).Nodup) :
    precedes n (front ++ m :: n :: l) = some m := by
  induction front with
  | nil => rw [List.nil_append, precedes, if_pos rfl]
  | cons x front ih =>
    obtain ⟨hx, hnodup⟩ := List.nodup_cons.mp hnodup
    have hrest := ih hnodup
    cases front with
    | nil =>
      have hne : m ≠ n := by
        have := (List.nodup_cons.mp hnodup).1
        exact fun h => this (h ▸ List.mem_cons_self)
      exact (if_neg hne).trans hrest
    | cons y front =>
      have hne : y ≠ n := by
        have := (List.nodup_cons.mp hnodup).1
        exact fun h => this (by rw [h]; simp)
      exact (if_neg hne).trans hrest

/-- From `n` towards `h`. -/
def toward (h n : α) : Option α := (precedes n (t.ancestors h)).or (t.parent n)

/-- From a proper ancestor of `h` the next node is a child. -/
theorem toward_child (hmem : n ∈ t.ancestors h) (hne : n ≠ h) :
    ∃ m front, t.toward h n = some m ∧ t.parent m = some n ∧
      t.ancestors h = front ++ t.ancestors m := by
  obtain ⟨front, hfront⟩ := t.suffix_of_mem hmem
  rcases List.eq_nil_or_concat front with rfl | ⟨front, m, rfl⟩
  · -- the list of `h` begins with `h`
    rw [List.nil_append, t.ancestors_eq n, t.ancestors_eq h] at hfront
    exact absurd (List.cons.inj hfront).1 hne
  · rw [List.concat_eq_append, List.append_assoc, List.singleton_append] at hfront
    have hm : m ∈ t.ancestors h := by
      rw [← hfront]
      simp
    obtain ⟨front', hfront'⟩ := t.suffix_of_mem hm
    have hnodup := t.ancestors_nodup h
    have hm' : t.ancestors m = m :: t.ancestors n := by
      have hnodup' := hnodup
      have hsplit := hfront'.trans hfront.symm
      rw [t.ancestors_eq m] at hsplit ⊢
      rw [← hfront] at hnodup
      rw [← hfront', t.ancestors_eq m] at hnodup'
      rcases List.append_eq_append_iff.mp hsplit with ⟨cs, rfl, hcs⟩ | ⟨cs, rfl, hcs⟩
      · cases cs with
        | nil => exact hcs
        | cons c cs =>
          obtain ⟨rfl, -⟩ := List.cons.inj hcs
          simp [List.nodup_append] at hnodup
      · cases cs with
        | nil => exact hcs.symm
        | cons c cs =>
          obtain ⟨rfl, -⟩ := List.cons.inj hcs
          simp [List.nodup_append] at hnodup'
    have hparent : t.parent m = some n := by
      cases hp : t.parent m with
      | none =>
        rw [t.ancestors_root hp, t.ancestors_eq n] at hm'
        cases hm'
      | some p =>
        rw [t.ancestors_parent hp, t.ancestors_eq p, t.ancestors_eq n] at hm'
        rw [(List.cons.inj (List.cons.inj hm').2).1]
    refine ⟨m, front', ?_, hparent, hfront'.symm⟩
    rw [← hfront, t.ancestors_eq n] at hnodup
    rw [toward, ← hfront, t.ancestors_eq n, precedes_append hnodup]
    rfl

/-- From any other node the next is the parent. -/
theorem toward_parent (hmem : n ∉ t.ancestors h) : t.toward h n = t.parent n := by
  rw [toward, precedes_eq_none fun htail => hmem (List.mem_of_mem_tail htail)]
  rfl

theorem toward_adjacent (hne : n ≠ h) (hm : t.toward h n = some m) : t.Adjacent n m := by
  by_cases hmem : n ∈ t.ancestors h
  · obtain ⟨m', -, hm', hparent, -⟩ := t.toward_child hmem hne
    cases hm.symm.trans hm'
    exact .inr hparent
  · rw [t.toward_parent hmem] at hm
    exact .inl hm

/-- From a neighbour the next node is the goal. -/
theorem toward_neighbour (hadj : t.Adjacent h m) : t.toward h m = some h := by
  rcases hadj with hp | hp
  · -- `m` stands behind `h` in its list
    have hnodup := t.ancestors_nodup h
    rw [t.ancestors_parent hp, t.ancestors_eq m] at hnodup
    have hprec : precedes m ([] ++ h :: m :: (t.parent m).elim [] t.ancestors) = some h :=
      precedes_append hnodup
    rw [toward, t.ancestors_parent hp, t.ancestors_eq m, ← List.nil_append (h :: _), hprec]
    rfl
  · rw [t.toward_parent (t.not_mem_ancestors_parent hp), hp]

/-- A step of the goal changes the way from its two ends only. -/
theorem toward_move (hadj : t.Adjacent h m) (hh : n ≠ h) (hm : n ≠ m) :
    t.toward m n = t.toward h n := by
  have hdown : ∀ {h m : α}, t.parent m = some h → n ≠ h → n ≠ m →
      t.toward m n = t.toward h n := by
    intro h m hp hh hm
    by_cases hmem : n ∈ t.ancestors h
    · have hprec : precedes n (t.ancestors m) = precedes n (t.ancestors h) := by
        rw [t.ancestors_parent hp, t.ancestors_eq h, precedes, if_neg (Ne.symm hh)]
      rw [toward, hprec, toward]
    · have hmem' : n ∉ t.ancestors m := by
        rw [t.ancestors_parent hp, List.mem_cons, not_or]
        exact ⟨hm, hmem⟩
      rw [t.toward_parent hmem, t.toward_parent hmem']
  rcases hadj with hp | hp
  · exact (hdown hp hm hh).symm
  · exact hdown hp hh hm

/-! ## The nodes on the way -/

/-- The ancestors of `m` that are none of `n`. -/
def leaves (m n : α) : List α := (t.ancestors m).filter (· ∉ t.ancestors n)

theorem leaves_self (n : α) : t.leaves n n = [] := by
  rw [leaves, List.filter_eq_nil_iff]
  simp

theorem leaves_of_suffix {m n : α} (h : t.ancestors m <:+ t.ancestors n) : t.leaves m n = [] := by
  rw [leaves, List.filter_eq_nil_iff]
  intro x hx
  simpa using h.subset hx

theorem leaves_append {front : List α} (hm : t.ancestors m = front ++ t.ancestors n) :
    t.leaves m n = front := by
  have hnodup := t.ancestors_nodup m
  rw [hm, List.nodup_append] at hnodup
  rw [leaves, hm, List.filter_append, List.filter_eq_self.mpr, List.filter_eq_nil_iff.mpr,
    List.append_nil]
  · simp
  · intro x hx
    simpa using fun hmem => hnodup.2.2 x hx x hmem rfl

/-- The way to `n` is the way to the node before it and one step: down, where that is the parent
of `n`, or up. -/
theorem leaves_step (hne : n ≠ h) (hm : t.toward h n = some m) :
    (t.parent n = some m ∧ t.leaves h n = t.leaves h m ∧ t.leaves n h = n :: t.leaves m h) ∨
      (t.parent m = some n ∧ t.leaves h n = t.leaves h m ++ [m] ∧ t.leaves n h = [] ∧
        t.leaves m h = []) := by
  by_cases hmem : n ∈ t.ancestors h
  · obtain ⟨m', front, hm', hparent, hfront⟩ := t.toward_child hmem hne
    cases hm.symm.trans hm'
    refine .inr ⟨hparent, ?_, t.leaves_of_suffix (t.suffix_of_mem hmem),
      t.leaves_of_suffix ⟨front, hfront.symm⟩⟩
    rw [t.leaves_append hfront]
    apply t.leaves_append
    rw [hfront, t.ancestors_parent hparent, List.append_assoc, List.singleton_append]
  · rw [t.toward_parent hmem] at hm
    refine .inl ⟨hm, ?_, ?_⟩
    · refine List.filter_congr fun x hx => ?_
      have hxn : x ≠ n := fun h => hmem (h ▸ hx)
      rw [t.ancestors_parent hm]
      simp [hxn]
    · rw [leaves, t.ancestors_parent hm, List.filter_cons_of_pos (by simpa using hmem)]
      rfl

/-- How many steps the way has. -/
def distance (h n : α) : Nat := (t.leaves h n).length + (t.leaves n h).length

theorem distance_step (hne : n ≠ h) (hm : t.toward h n = some m) :
    t.distance h n = t.distance h m + 1 := by
  rw [distance, distance]
  rcases t.leaves_step hne hm with ⟨-, hup, hdown⟩ | ⟨-, hup, hdown, hm⟩
  · rw [hup, hdown, List.length_cons]
    omega
  · rw [hup, hdown, hm, List.length_append, List.length_singleton]
    rfl

/-- No node is left twice, entered twice, or left and entered. -/
theorem leaves_nodup (m n : α) : (t.leaves m n ++ (t.leaves n m).reverse).Nodup := by
  rw [List.nodup_append]
  refine ⟨(t.ancestors_nodup m).filter _, List.nodup_reverse.mpr ((t.ancestors_nodup n).filter _), ?_⟩
  intro x hx y hy hxy
  have hx := List.mem_filter.mp hx
  have hy := List.mem_filter.mp (List.mem_reverse.mp hy)
  have hnot : x ∉ t.ancestors n := by simpa using hx.2
  exact hnot (hxy ▸ hy.1)

end ParentTree
