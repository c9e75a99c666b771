/-
  Lib/StableSort.lean --- stable sorts by a total preorder.

  `Sorts le l r` says that `r` is `l` in order with tied elements in the order of `l`:
  for each element, those it is tied with are the same list in `r` as in `l`.  There is
  one such list (`Sorts.unique`), it is what `List.mergeSort` gives (`sorts_mergeSort`),
  and two of them merge into one (`Sorts.merge`).

  The order of a strict weak order `lt` is `leOf lt`, the elements that are not greater.
-/
import Mathlib.Order.Defs.Unbundled
import Mathlib.Data.List.Perm.Basic

set_option autoImplicit false

namespace StableSort

variable {α β : Type*} {le : α → α → Bool} {l l' r r' : List α} {x y : α}

/-- Neither of the two is before the other. -/
def tied (le : α → α → Bool) (x y : α) : Bool := le x y && le y x

/-- `r` is `l` in order, tied elements as they are in `l`. -/
structure Sorts (le : α → α → Bool) (l r : List α) : Prop where
  perm : r.Perm l
  sorted : r.Pairwise fun x y => le x y
  stable : ∀ x, r.filter (tied le x) = l.filter (tied le x)

/-- A total preorder. -/
structure TotalPreorder (le : α → α → Bool) : Prop where
  trans : ∀ x y z, le x y → le y z → le x z
  total : ∀ x y, le x y ∨ le y x

/-- What is not greater. -/
def leOf (lt : α → α → Bool) (x y : α) : Bool := !lt y x

theorem leOf_iff {lt : α → α → Bool} : leOf lt x y ↔ ¬ lt y x := by
  rw [leOf, Bool.not_eq_true', Bool.not_eq_true]

theorem leOf_totalPreorder (lt : α → α → Bool) [h : IsStrictWeakOrder α fun x y => lt x y] :
    TotalPreorder (leOf lt) where
  trans x y z hxy hyz := by
    rw [leOf_iff] at hxy hyz ⊢
    intro hzx
    by_cases hyx : lt x y
    · exact hyz (h.trans z x y hzx hyx)
    · by_cases hzy : lt y z
      · exact hxy (h.trans y z x hzy hzx)
      · exact (h.incomp_trans x y z ⟨hyx, hxy⟩ ⟨hzy, hyz⟩).2 hzx
  total x y := by
    rw [leOf_iff, leOf_iff]
    by_contra hboth
    rw [not_or, not_not, not_not] at hboth
    exact h.irrefl x (h.trans x y x hboth.2 hboth.1)

theorem TotalPreorder.comap (h : TotalPreorder le) (f : β → α) :
    TotalPreorder fun x y => le (f x) (f y) where
  trans x y z := h.trans (f x) (f y) (f z)
  total x y := h.total (f x) (f y)

theorem TotalPreorder.refl (h : TotalPreorder le) (x : α) : le x x := (h.total x x).elim id id

theorem tied_iff : tied le x y ↔ le x y ∧ le y x := Bool.and_eq_true_iff

/-! ## One result -/

theorem Sorts.eq_of_filter (hle : TotalPreorder le) (hperm : r.Perm r')
    (hsorted : r.Pairwise fun x y => le x y) (hsorted' : r'.Pairwise fun x y => le x y)
    (hstable : ∀ x, r.filter (tied le x) = r'.filter (tied le x)) : r = r' := by
  induction r generalizing r' with
  | nil => exact (List.nil_perm.mp hperm).symm
  | cons x r ih =>
    cases r' with
    | nil => exact absurd hperm.symm (List.not_perm_nil_cons x r)
    | cons x' r' =>
      rw [List.pairwise_cons] at hsorted hsorted'
      have hxx' : le x x' := by
        rcases List.mem_cons.mp (hperm.symm.subset List.mem_cons_self) with heq | hmem
        · rw [heq]
          exact hle.refl x
        · exact hsorted.1 x' hmem
      have hx'x : le x' x := by
        rcases List.mem_cons.mp (hperm.subset List.mem_cons_self) with heq | hmem
        · rw [heq]
          exact hle.refl x'
        · exact hsorted'.1 x hmem
      -- the two heads are tied, so they are the first of one class
      have hhead := hstable x
      rw [List.filter_cons_of_pos (tied_iff.mpr ⟨hle.refl x, hle.refl x⟩),
        List.filter_cons_of_pos (tied_iff.mpr ⟨hxx', hx'x⟩)] at hhead
      obtain ⟨rfl, -⟩ := List.cons.inj hhead
      refine congrArg (List.cons x) (ih hperm.cons_inv hsorted.2 hsorted'.2 fun z => ?_)
      have hz := hstable z
      by_cases hzx : tied le z x
      · rw [List.filter_cons_of_pos hzx, List.filter_cons_of_pos hzx] at hz
        exact (List.cons.inj hz).2
      · rw [List.filter_cons_of_neg hzx, List.filter_cons_of_neg hzx] at hz
        exact hz

/-- There is one stable sort. -/
theorem Sorts.unique (hle : TotalPreorder le) (h : Sorts le l r) (h' : Sorts le l r') : r = r' :=
  Sorts.eq_of_filter hle (h.perm.trans h'.perm.symm) h.sorted h'.sorted
    fun x => (h.stable x).trans (h'.stable x).symm

/-- The first of a sort is a least element. -/
theorem Sorts.first_le (hle : TotalPreorder le) (h : Sorts le l (x :: r)) : ∀ y ∈ l, le x y := by
  intro y hy
  rcases List.mem_cons.mp (h.perm.symm.subset hy) with rfl | hy
  · exact hle.refl y
  · exact (List.pairwise_cons.mp h.sorted).1 y hy

/-- A sort of elements that stand for others is a sort of those. -/
theorem Sorts.of_map {leβ : β → β → Bool} {l : List α} {r : List β} {f : α → β} {g : β → α}
    (hgf : ∀ x, g (f x) = x) (hle : ∀ x y, leβ (f x) (f y) = le x y)
    (h : Sorts leβ (l.map f) r) : ∃ r', r = r'.map f ∧ Sorts le l r' := by
  have hr : r = (r.map g).map f := by
    rw [List.map_map]
    conv_lhs => rw [← List.map_id r]
    refine List.map_congr_left fun b hb => ?_
    obtain ⟨a, -, rfl⟩ := List.mem_map.mp (h.perm.subset hb)
    exact (congrArg f (hgf a)).symm
  generalize r.map g = r' at hr
  subst hr
  have hinj : Function.Injective f := fun x y hxy => by rw [← hgf x, hxy, hgf y]
  refine ⟨r', rfl, (List.map_perm_map_iff hinj).mp h.perm, ?_, fun x => ?_⟩
  · have hsorted := List.pairwise_map.mp h.sorted
    exact hsorted.imp fun {x y} hxy => hle x y ▸ hxy
  · have hstable := h.stable (f x)
    have htied : tied leβ (f x) ∘ f = tied le x := funext fun y => by
      rw [Function.comp_apply, tied, tied, hle, hle]
    rw [List.filter_map, List.filter_map, htied] at hstable
    exact List.map_injective_iff.mpr hinj hstable

/-! ## Merging -/

/-- Of a class, what comes from the first list stays before what comes from the second. -/
theorem filter_merge (hle : TotalPreorder le) (hr : r.Pairwise fun x y => le x y) (x : α) :
    (List.merge r r' le).filter (tied le x) = r.filter (tied le x) ++ r'.filter (tied le x) := by
  induction r generalizing r' with
  | nil => rw [List.nil_merge, List.filter_nil, List.nil_append]
  | cons y r ih =>
    induction r' with
    | nil => rw [List.merge_right, List.filter_nil, List.append_nil]
    | cons y' r' ih' =>
      rw [List.cons_merge_cons]
      split
      · rw [List.filter_cons, ih (List.pairwise_cons.mp hr).2, List.filter_cons (x := y)]
        split <;> rfl
      · rename_i hyy'
        rw [List.filter_cons, ih', List.filter_cons (x := y')]
        split
        · rename_i hx
          -- everything of the first list is after `y'`, and none of it is in its class
          have hnone : (y :: r).filter (tied le x) = [] := by
            rw [List.filter_eq_nil_iff]
            intro z hz hxz
            have hyz : le y z := by
              rcases List.mem_cons.mp hz with rfl | hz
              · exact hle.refl z
              · exact (List.pairwise_cons.mp hr).1 z hz
            exact hyy' (hle.trans y x y' (hle.trans y z x hyz (tied_iff.mp hxz).2)
              (tied_iff.mp hx).1)
          rw [hnone]
          rfl
        · rfl

/-- Two stable sorts merge into one of both lists. -/
theorem Sorts.merge (hle : TotalPreorder le) (h : Sorts le l r) (h' : Sorts le l' r') :
    Sorts le (l ++ l') (List.merge r r' le) where
  perm := (List.merge_perm_append le).trans (h.perm.append h'.perm)
  sorted := List.pairwise_merge hle.trans (fun x y => by
    rw [Bool.or_eq_true]
    exact hle.total x y) r r' h.sorted h'.sorted
  stable x := by
    rw [filter_merge hle h.sorted, h.stable, h'.stable, List.filter_append]

theorem sorts_nil : Sorts le [] [] := ⟨.refl _, .nil, fun _ => rfl⟩

theorem sorts_singleton (x : α) : Sorts le [x] [x] :=
  ⟨.refl _, List.pairwise_singleton _ x, fun _ => rfl⟩

/-- Two elements. -/
theorem sorts_pair (hle : TotalPreorder le) (x y : α) :
    Sorts le [x, y] (if le x y then [x, y] else [y, x]) := by
  have hmerge := (@sorts_singleton _ le x).merge hle (sorts_singleton y)
  rw [List.cons_merge_cons, List.nil_merge, List.merge_right] at hmerge
  exact hmerge

theorem sorts_mergeSort (hle : TotalPreorder le) (l : List α) : Sorts le l (l.mergeSort le) := by
  induction hn : l.length using Nat.strongRecOn generalizing l with
  | ind n ih =>
    match l with
    | [] =>
      rw [List.mergeSort_nil]
      exact sorts_nil
    | [x] =>
      rw [List.mergeSort_singleton]
      exact sorts_singleton x
    | x :: y :: l =>
      have hsplit := List.MergeSort.Internal.splitInTwo_fst_append_splitInTwo_snd ⟨x :: y :: l, rfl⟩
      rw [List.mergeSort]
      dsimp only at hsplit ⊢
      generalize List.MergeSort.Internal.splitInTwo ⟨x :: y :: l, rfl⟩ = halves at hsplit ⊢
      obtain ⟨⟨l₁, h₁⟩, ⟨l₂, h₂⟩⟩ := halves
      rw [List.length_cons, List.length_cons] at hn h₁ h₂
      have hmerge := (ih _ (by omega) l₁ rfl).merge hle (ih _ (by omega) l₂ rfl)
      rw [show l₁ ++ l₂ = _ from hsplit] at hmerge
      exact hmerge

end StableSort
