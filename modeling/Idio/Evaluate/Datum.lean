/-
  Evaluate/Datum.lean --- values as the evaluator takes them apart.

  An expression is a value: `#n`, a pair, a symbol, an array or an atom.  Symbols are compared
  by identity, so each has one constructor of `Sym`.
-/
import Idio.Basic

set_option autoImplicit false

namespace Idio

/-- The symbols that the evaluator has names for, those `g/1`, `g/2` and so on that
`idio_gensym` makes, and the others. -/
inductive Sym where
  | quote
  | quasiquote
  | unquote
  | unquotesplicing
  | list
  | pair
  | append
  | list2array
  | begin
  | if
  | let
  | or
  | else
  | eq_gt
  | g (id : Nat)
  | other (s : String)
  deriving DecidableEq, Repr

/-- A value; `atom` is any but `#n`, a pair, a symbol and an array. -/
inductive Datum (α : Type) where
  | nil
  | pair (h t : Datum α)
  | symbol (s : Sym)
  | array (es : List (Datum α))
  | atom (a : α)

namespace Datum

variable {α : Type}

/-- A list in front of another value. -/
def listTo (tail : Datum α) : List (Datum α) → Datum α
  | [] => tail
  | x :: xs => .pair x (listTo tail xs)

/-- The list of some values; that of an array is `idio_array_to_list`. -/
def list (xs : List (Datum α)) : Datum α := listTo .nil xs

/-- `(k x)` -/
abbrev form (k : Sym) (x : Datum α) : Datum α := .pair (.symbol k) (.pair x .nil)

/-- `(f x y)` -/
abbrev call₂ (f : Sym) (x y : Datum α) : Datum α :=
  .pair (.symbol f) (.pair x (.pair y .nil))

theorem sizeOf_list (xs : List (Datum α)) : sizeOf (list xs) = sizeOf xs := by
  induction xs with
  | nil => rfl
  | cons x xs ih =>
    show 1 + sizeOf x + sizeOf (list xs) = 1 + sizeOf x + sizeOf xs
    rw [ih]

mutual

/-- The symbols in a value. -/
def symbols : Datum α → List Sym
  | .nil => []
  | .pair h t => symbols h ++ symbols t
  | .symbol s => [s]
  | .array es => symbolsAll es
  | .atom _ => []

/-- The symbols in some values. -/
def symbolsAll : List (Datum α) → List Sym
  | [] => []
  | e :: es => symbols e ++ symbolsAll es

end

theorem mem_symbols_list {x : Sym} {d : Datum α} {ds : List (Datum α)} (hd : d ∈ ds)
    (hx : x ∈ d.symbols) : x ∈ (list ds).symbols := by
  induction hd with
  | head ds => exact List.mem_append_left _ hx
  | tail e _ ih => exact List.mem_append_right _ ih

end Datum

end Idio
