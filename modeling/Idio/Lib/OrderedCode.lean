/-
  Lib/OrderedCode.lean --- codes that keep an order.

  Every element has a code; the codes of two elements in order have a first place where
  they are unlike, and are in order there.  Lists that are encoded element by element
  are then in the order in which their first unlike code elements are.  The comparison
  looks at a number of code elements at most and stops at a mark.
-/
import Mathlib.Data.List.Lex
import Mathlib.Order.Lattice

set_option autoImplicit false

namespace OrderedCode

section

variable {α β : Type} [LinearOrder α] [LinearOrder β]

/-- There is a first place where two lists are unlike, and they are in order there. -/
def Precedes : List β → List β → Prop
  | a :: as, b :: bs => a < b ∨ a = b ∧ Precedes as bs
  | _, _ => False

/-- The codes of the admitted elements keep the order. -/
def Keeps (e : α → List β) (ok : α → Prop) : Prop :=
  ∀ c d, ok c → ok d → c < d → Precedes (e c) (e d)

/-- The first unlike elements among the first `n` up to the mark. -/
def firstUnlike (mark : β) : List β → List β → Nat → Option (β × β)
  | a :: as, b :: bs, n =>
      if n = 0 then none
      else if a ≠ b then some (a, b)
      else if a = mark then none
      else firstUnlike mark as bs (n - 1)
  | _, _, _ => none

variable {mark a b : β} {as bs : List β} {n : Nat}

@[simp]
theorem precedes_cons : Precedes (a :: as) (b :: bs) ↔ a < b ∨ a = b ∧ Precedes as bs := Iff.rfl

@[simp]
theorem not_precedes_nil : ¬ Precedes as ([] : List β) := by
  cases as <;> exact not_false

theorem firstUnlike_nil (h : as = [] ∨ bs = []) : firstUnlike mark as bs n = none := by
  rcases h with rfl | rfl
  · rfl
  · cases as <;> rfl

theorem firstUnlike_cons_self {r : β × β} (h : firstUnlike mark (a :: as) (a :: bs) n = some r) :
    a ≠ mark ∧ n ≠ 0 ∧ firstUnlike mark as bs (n - 1) = some r := by
  rw [firstUnlike] at h
  by_cases hn : n = 0
  · rw [if_pos hn] at h
    cases h
  rw [if_neg hn, if_neg (not_not.mpr rfl)] at h
  by_cases ha : a = mark
  · rw [if_pos ha] at h
    cases h
  · rw [if_neg ha] at h
    exact ⟨ha, hn, h⟩

theorem firstUnlike_cons_ne {c d : β} (hne : c ≠ d)
    (h : firstUnlike mark (c :: as) (d :: bs) n = some (a, b)) : a = c ∧ b = d := by
  rw [firstUnlike, if_pos hne] at h
  split at h
  · cases h
  · cases h
    exact ⟨rfl, rfl⟩

theorem firstUnlike_append (p : List β) {r : β × β}
    (h : firstUnlike mark (p ++ as) (p ++ bs) n = some r) :
    ∃ m, firstUnlike mark as bs m = some r := by
  induction p generalizing n with
  | nil => exact ⟨n, h⟩
  | cons c p ih => exact ih (firstUnlike_cons_self h).2.2

theorem firstUnlike_swap : firstUnlike mark bs as n = (firstUnlike mark as bs n).map Prod.swap := by
  induction as generalizing bs n with
  | nil => rw [firstUnlike_nil (.inl rfl), firstUnlike_nil (.inr rfl), Option.map_none]
  | cons c as ih =>
    cases bs with
    | nil => rw [firstUnlike_nil (.inl rfl), firstUnlike_nil (.inr rfl), Option.map_none]
    | cons d bs =>
      rw [firstUnlike, firstUnlike]
      by_cases hn : n = 0
      · rw [if_pos hn, if_pos hn, Option.map_none]
      rw [if_neg hn, if_neg hn]
      by_cases hcd : c = d
      · subst hcd
        rw [if_neg (not_not.mpr rfl), if_neg (not_not.mpr rfl), ih, apply_ite (Option.map Prod.swap),
          Option.map_none]
      · rw [if_pos hcd, if_pos (Ne.symm hcd), Option.map_some, Prod.swap_prod_mk]

/-- What follows the place where two codes are unlike is not looked at. -/
theorem Precedes.unlike {xs ys : List β} (h : Precedes xs ys)
    (hu : firstUnlike mark (xs ++ as) (ys ++ bs) n = some (a, b)) : a < b := by
  induction xs generalizing ys n with
  | nil => cases h
  | cons c xs ih =>
    cases ys with
    | nil => cases h
    | cons d ys =>
      rw [List.cons_append, List.cons_append] at hu
      rcases h with hlt | ⟨rfl, h⟩
      · obtain ⟨rfl, rfl⟩ := firstUnlike_cons_ne (ne_of_lt hlt) hu
        exact hlt
      · exact ih h (firstUnlike_cons_self hu).2.2

/-- Codes in order are found unlike, if the comparison goes as far as that. -/
theorem Precedes.unlike_ne_none {xs ys : List β} (h : Precedes xs ys) (hmark : mark ∉ xs)
    (hn : min xs.length ys.length ≤ n) : firstUnlike mark (xs ++ as) (ys ++ bs) n ≠ none := by
  induction xs generalizing ys n with
  | nil => cases h
  | cons c xs ih =>
    cases ys with
    | nil => cases h
    | cons d ys =>
      rw [List.length_cons, List.length_cons] at hn
      obtain ⟨hc, hmark⟩ := not_or.mp (mt List.mem_cons.mpr hmark)
      rw [List.cons_append, List.cons_append, firstUnlike, if_neg (by omega)]
      rcases h with hlt | ⟨rfl, h⟩
      · rw [if_pos (ne_of_lt hlt)]
        exact Option.some_ne_none _
      · rw [if_neg (not_not.mpr rfl), if_neg (Ne.symm hc)]
        exact ih h hmark (by omega)

/-- The first unlike code elements are in the order of the lists, whatever the lists go on
with. -/
theorem Keeps.order {e : α → List β} {ok : α → Prop} (h : Keeps e ok) {xs ys : List α}
    (hx : ∀ c ∈ xs, ok c) (hy : ∀ c ∈ ys, ok c)
    (hu : firstUnlike mark (xs.flatMap e) (ys.flatMap e) n = some (a, b)) (xs' ys' : List α) :
    a < b ∧ xs ++ xs' < ys ++ ys' ∨ b < a ∧ ys ++ ys' < xs ++ xs' := by
  induction xs generalizing ys n with
  | nil =>
    rw [List.flatMap_nil, firstUnlike_nil (.inl rfl)] at hu
    cases hu
  | cons c xs ih =>
    cases ys with
    | nil =>
      rw [List.flatMap_nil, firstUnlike_nil (.inr rfl)] at hu
      cases hu
    | cons d ys =>
      obtain ⟨hc, hxs⟩ := List.forall_mem_cons.mp hx
      obtain ⟨hd, hys⟩ := List.forall_mem_cons.mp hy
      rw [List.flatMap_cons, List.flatMap_cons] at hu
      rw [List.cons_append, List.cons_append, List.cons_lt_cons_iff, List.cons_lt_cons_iff]
      rcases lt_trichotomy c d with hlt | heq | hgt
      · exact .inl ⟨(h c d hc hd hlt).unlike hu, .inl hlt⟩
      · subst heq
        obtain ⟨m, hu⟩ := firstUnlike_append _ hu
        rcases ih hxs hys hu with ⟨hab, hlt⟩ | ⟨hab, hlt⟩
        · exact .inl ⟨hab, .inr ⟨rfl, hlt⟩⟩
        · exact .inr ⟨hab, .inr ⟨rfl, hlt⟩⟩
      · exact .inr ⟨(h d c hd hc hgt).unlike (by rw [firstUnlike_swap, hu]; rfl), .inl hgt⟩

theorem firstUnlike_append_none {p : List β} (hmark : mark ∉ p) (hn : p.length ≤ n)
    (h : firstUnlike mark (p ++ as) (p ++ bs) n = none) :
    firstUnlike mark as bs (n - p.length) = none := by
  induction p generalizing n with
  | nil => exact h
  | cons c p ih =>
    rw [List.length_cons] at hn
    obtain ⟨hc, hmark⟩ := not_or.mp (mt List.mem_cons.mpr hmark)
    rw [List.cons_append, List.cons_append, firstUnlike, if_neg (by omega),
      if_neg (not_not.mpr rfl), if_neg (Ne.symm hc)] at h
    have htail := ih hmark (by omega) h
    rwa [Nat.sub_sub, Nat.add_comm] at htail

/-- If the codes have no mark and are compared in full, and no unlike elements are found, one
list begins the other. -/
theorem Keeps.begins {e : α → List β} {ok : α → Prop} (h : Keeps e ok) {xs ys : List α}
    (hx : ∀ c ∈ xs, ok c ∧ mark ∉ e c) (hy : ∀ c ∈ ys, ok c ∧ mark ∉ e c)
    (hn : min (xs.flatMap e).length (ys.flatMap e).length ≤ n)
    (hu : firstUnlike mark (xs.flatMap e) (ys.flatMap e) n = none) : xs <+: ys ∨ ys <+: xs := by
  induction xs generalizing ys n with
  | nil => exact .inl (List.nil_prefix)
  | cons c xs ih =>
    cases ys with
    | nil => exact .inr (List.nil_prefix)
    | cons d ys =>
      obtain ⟨⟨hc, hcm⟩, hxs⟩ := List.forall_mem_cons.mp hx
      obtain ⟨⟨hd, hdm⟩, hys⟩ := List.forall_mem_cons.mp hy
      rw [List.flatMap_cons, List.flatMap_cons] at hu hn
      rw [List.length_append, List.length_append] at hn
      rcases lt_trichotomy c d with hlt | heq | hgt
      · exact absurd hu ((h c d hc hd hlt).unlike_ne_none hcm (by omega))
      · subst heq
        by_cases hcn : (e c).length ≤ n
        · have htail := firstUnlike_append_none hcm hcn hu
          exact (ih hxs hys (by omega) htail).imp (List.prefix_cons_inj c).mpr
            (List.prefix_cons_inj c).mpr
        · omega
      · rw [firstUnlike_swap, Option.map_eq_none_iff] at hu
        exact absurd hu ((h d c hd hc hgt).unlike_ne_none hdm (by omega))

end

end OrderedCode
