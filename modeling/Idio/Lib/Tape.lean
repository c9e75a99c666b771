/-
  Lib/Tape.lean --- symbols with a cursor among them.

  What is written at the cursor takes the place of as many symbols, and goes on behind
  the last.  The cursor may be set to any symbol and behind the last, and is nowhere else.
-/
import Mathlib.Data.List.Basic

set_option autoImplicit false

universe u

@[ext]
structure Tape (α : Type u) where
  content : List α
  cursor : Nat
  within : cursor ≤ content.length

namespace Tape

variable {α : Type u}

def empty : Tape α := ⟨[], 0, Nat.le_refl 0⟩

/-- The content with `xs` put over it from `i` on. -/
def overwrite (l : List α) (i : Nat) (xs : List α) : List α :=
  l.take i ++ xs ++ l.drop (i + xs.length)

theorem length_overwrite {l : List α} {i : Nat} (hi : i ≤ l.length) (xs : List α) :
    (overwrite l i xs).length = max l.length (i + xs.length) := by
  rw [overwrite, List.length_append, List.length_append, List.length_take, List.length_drop]
  omega

theorem overwrite_nil (l : List α) (i : Nat) : overwrite l i [] = l := by
  rw [overwrite, List.append_nil]
  exact List.take_append_drop i l

theorem overwrite_overwrite {l : List α} {i : Nat} (hi : i ≤ l.length) (xs ys : List α) :
    overwrite (overwrite l i xs) (i + xs.length) ys = overwrite l i (xs ++ ys) := by
  have hlen : (l.take i ++ xs).length = i + xs.length := by
    rw [List.length_append, List.length_take, Nat.min_eq_left hi]
  have htake : (overwrite l i xs).take (i + xs.length) = l.take i ++ xs := by
    rw [overwrite, List.take_left' hlen]
  have hdrop : (overwrite l i xs).drop (i + xs.length + ys.length) =
      l.drop (i + xs.length + ys.length) := by
    rw [overwrite, ← List.drop_drop, List.drop_left' hlen, List.drop_drop]
  rw [overwrite, htake, hdrop, overwrite, List.length_append, Nat.add_assoc,
    List.append_assoc (l.take i)]

/-- What is put over a list has an effect on its beginning only as far as it reaches. -/
theorem take_overwrite {l : List α} {i n : Nat} {xs : List α} (hi : i ≤ n) (hn : n ≤ l.length) :
    (overwrite l i xs).take (max n (i + xs.length)) = overwrite (l.take n) i xs := by
  have hlen : (l.take i ++ xs).length = i + xs.length := by
    rw [List.length_append, List.length_take, Nat.min_eq_left (Nat.le_trans hi hn)]
  have hrest : max n (i + xs.length) - (i + xs.length) = n - (i + xs.length) := by omega
  rw [overwrite, List.take_append, hlen, List.take_of_length_le (hlen ▸ Nat.le_max_right _ _), hrest,
    overwrite, List.take_take, Nat.min_eq_left hi, List.drop_take]

def write (t : Tape α) (xs : List α) : Tape α where
  content := overwrite t.content t.cursor xs
  cursor := t.cursor + xs.length
  within := by
    rw [length_overwrite t.within]
    exact Nat.le_max_right _ _

theorem write_nil (t : Tape α) : t.write [] = t := Tape.ext (overwrite_nil _ _) rfl

theorem write_write (t : Tape α) (xs ys : List α) : (t.write xs).write ys = t.write (xs ++ ys) := by
  refine Tape.ext (overwrite_overwrite t.within xs ys) ?_
  show t.cursor + xs.length + ys.length = t.cursor + (xs ++ ys).length
  rw [List.length_append, Nat.add_assoc]

/-- The cursor at a place that is a symbol or the end. -/
def seek (t : Tape α) (i : Int) : Option (Tape α) :=
  if h : 0 ≤ i ∧ i ≤ t.content.length then some ⟨t.content, i.toNat, by omega⟩ else none

end Tape
