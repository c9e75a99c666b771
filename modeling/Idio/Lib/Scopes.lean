/-
  Lib/Scopes.lean --- nested bindings of variables, innermost first.

  An environment is a list of pairs of a variable and a value, and `List.lookup` gives
  the innermost binding.  `assign` changes that binding.
-/
import Mathlib.Data.List.Basic

set_option autoImplicit false

namespace Scopes

variable {K V : Type} [DecidableEq K]

/-- Give the innermost binding of the variable another value. -/
def assign (x : K) (v : V) : List (K × V) → List (K × V)
  | [] => []
  | (y, w) :: env => if y = x then (y, v) :: env else (y, w) :: assign x v env

theorem lookup_cons (x y : K) (w : V) (env : List (K × V)) :
    ((y, w) :: env).lookup x = if y = x then some w else env.lookup x := by
  rw [List.lookup_cons]
  by_cases h : y = x
  · rw [if_pos h, beq_iff_eq.mpr h.symm]
  · rw [if_neg h, beq_eq_false_iff_ne.mpr (Ne.symm h)]

/-- Where the variable has no binding nothing changes. -/
theorem assign_of_lookup_none {x : K} (v : V) {env : List (K × V)} (h : env.lookup x = none) :
    assign x v env = env := by
  induction env with
  | nil => rfl
  | cons b env ih =>
    obtain ⟨y, w⟩ := b
    rw [lookup_cons] at h
    by_cases hy : y = x
    · rw [if_pos hy] at h
      cases h
    · rw [if_neg hy] at h
      rw [assign, if_neg hy, ih h]

end Scopes
