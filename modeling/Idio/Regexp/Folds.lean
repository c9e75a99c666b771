/-
  Regexp/Folds.lean --- the functions that rewrite a string by the matches of a regexp.

  They call the matcher through `regexp-run-offsets #t`, which is a parameter here: a
  function of the string and of the two ends of the range, for one regexp.
-/
import Idio.Basic
import Mathlib.Data.List.Basic

set_option autoImplicit false

namespace Idio.Regexp

/-- What a submatch is: its positions, or the list that a submatch list collects. -/
inductive Submatch where
  | unmatched
  | at (start stop : Nat)
  | collected
  deriving DecidableEq

/-- The data of a match: the positions of the whole, and its submatches from 1 on. -/
structure RegexpMatch where
  string : List Char
  start : Nat
  stop : Nat
  submatches : List Submatch
  names : List (String × Nat)
  deriving DecidableEq

/-- `regexp-run-offsets #t rx` -/
abbrev Search : Type := List Char → Nat → Nat → Option RegexpMatch

/-- The part of a string between two positions. -/
def slice (s : List Char) (p0 pn : Nat) : List Char := (s.drop p0).take (pn - p0)

/-- `substring` -/
def substring (s : List Char) (p0 pn : Nat) : Result (List Char) :=
  if p0 ≤ pn ∧ pn ≤ s.length then .ok (slice s p0 pn)
  else .error (.stringError "substring index: out of bounds")

/-- `regexp-match-submatch`, with `none` for `#f`. -/
def regexpMatchSubmatch (md : RegexpMatch) (n : Nat) : Result (Option (List Char)) :=
  match n with
  | 0 => do .ok (some (← substring md.string md.start md.stop))
  | n + 1 =>
      match md.submatches[n]? with
      | none | some .unmatched => .ok none
      | some (.at s j) => do .ok (some (← substring md.string s j))
      -- a list of positions, of which no string can be made
      | some .collected => .error (.paramType "string")

/-- An element of a substitution. -/
inductive Item where
  | text (s : List Char)
  | number (n : Nat)
  | function (f : RegexpMatch → List Char)
  | symbol (name : String)

section Fold

variable {A B : Type} (search : Search) (kons : Nat → RegexpMatch → A → Result A)
  (finish : Nat → A → Result B) (str : List Char) (e : Nat)

/-- The loop of `regexp-fold`. -/
def regexpFoldLoop : Nat → Nat → Nat → A → Result B
  | 0, _, _, _ => .error .diverges
  | fuel + 1, i, last, acc =>
      if i < e then
        match search str i e with
        | some md => do
            let j := md.stop
            regexpFoldLoop fuel (if i = j ∧ j < e then j + 1 else j) j (← kons last md acc)
        | none => finish last acc
      else finish last acc

/-- `regexp-fold` -/
def regexpFold (fuel : Nat) (knil : A) (start : Nat) : Result B :=
  regexpFoldLoop search kons finish str e fuel start start knil

end Fold

section Rewrites

variable (search : Search) (fuel : Nat) (str : List Char)

/-- `regexp-split` -/
def regexpSplit (start e : Nat) : Result (List (List Char)) :=
  regexpFold search
    (fun _ md a =>
      let i := md.start
      let j := md.stop
      if i = j then .ok a else do .ok (j, (← substring str a.1 i) :: a.2))
    (fun _ (a : Nat × List (List Char)) => do .ok ((← substring str a.1 e) :: a.2).reverse)
    str e fuel (start, []) start

/-- `regexp-partition` -/
def regexpPartition (start e : Nat) : Result (List (List Char)) := do
  let a ← regexpFold search
    (fun _ md a =>
      let i := md.start
      let j := md.stop
      if i = j then .ok a
      else do
        let left ← substring str a.1 i
        let whole ← substring md.string md.start md.stop
        .ok (j, whole :: left :: a.2))
    (fun last (a : Nat × List (List Char)) =>
      if last < e ∨ a.2 = [] then do .ok ((← substring str a.1 e) :: a.2) else .ok a.2)
    str e fuel (start, []) start
  .ok a.reverse

/-- What `regexp-apply-match` makes of an element of the substitution. -/
def itemText (m : RegexpMatch) (start e : Nat) : Item → Result (List Char)
  | .text s => .ok s
  | .number n => do .ok ((← regexpMatchSubmatch m n).getD [])
  | .function f => .ok (f m)
  | .symbol name =>
      if name = "pre" then substring str start m.start
      else if name = "post" then substring str m.stop e
      else
        match m.names.lookup name with
        | some n => do .ok ((← regexpMatchSubmatch m n).getD [])
        | none => .error (.paramValue "regexp-apply-match" name "unknown match replacement")

/-- The loop of `regexp-apply-match`. -/
def regexpApplyMatchLoop (m : RegexpMatch) (start e : Nat) :
    List Item → List (List Char) → Result (List (List Char))
  | [], res => .ok res
  | item :: ls, res => do regexpApplyMatchLoop m start e ls ((← itemText str m start e item) :: res)

/-- `regexp-apply-match`, where a substitution that is no list stands for the list of it. -/
def regexpApplyMatch (m : RegexpMatch) (subst : List Item) (start e : Nat) :
    Result (List (List Char)) :=
  regexpApplyMatchLoop str m start e subst []

/-- The loop of `regexp-replace`. -/
def regexpReplaceLoop (subst : List Item) (start e : Nat) : Nat → Nat → Result (List Char)
  | i, count =>
      match search str i e with
      | none => .ok str
      | some m =>
          match count with
          | count + 1 => regexpReplaceLoop subst start e m.stop count
          | 0 => do
              let left ← substring str start m.start
              let pieces ← regexpApplyMatch str m subst start e
              let right ← substring str m.stop e
              .ok (left :: (pieces.reverse ++ [right])).flatten

/-- `regexp-replace` -/
def regexpReplace (subst : List Item) (start e count : Nat) : Result (List Char) :=
  regexpReplaceLoop search str subst start e start count

/-- `regexp-replace-all`: `finish` goes on to the end of the string. -/
def regexpReplaceAll (subst : List Item) (start e : Nat) : Result (List Char) :=
  regexpFold search
    (fun i m acc => do
      let mStart := m.start
      let pieces ← regexpApplyMatch str m subst start e
      if i ≥ mStart then .ok (pieces ++ acc)
      else do .ok (pieces ++ (← substring str i mStart) :: acc))
    (fun i (acc : List (List Char)) => do
      let e := str.length
      if i ≥ e then .ok acc.reverse.flatten
      else do .ok ((← substring str i e) :: acc).reverse.flatten)
    str e fuel [] start

end Rewrites

/-! ## Parts of strings -/

section Slices

variable {s : List Char} {a b i j k : Nat}

theorem slice_self (s : List Char) (i : Nat) : slice s i i = [] := by
  rw [slice, Nat.sub_self, List.take_zero]

theorem slice_append (h : i ≤ j) (h' : j ≤ k) : slice s i j ++ slice s j k = slice s i k := by
  have hdrop : s.drop j = (s.drop i).drop (j - i) := by
    rw [List.drop_drop, Nat.add_sub_cancel' h]
  have hsum : k - i = (j - i) + (k - j) := by omega
  rw [slice, slice, slice, hdrop, hsum, List.take_add]

theorem length_slice (h : j ≤ s.length) : (slice s i j).length = j - i := by
  rw [slice, List.length_take, List.length_drop]
  omega

theorem slice_slice (h : a + j ≤ b) : slice (slice s a b) i j = slice s (a + i) (a + j) := by
  rw [slice, slice, slice, List.drop_take, List.drop_drop, List.take_take]
  congr 1
  omega

theorem slice_eq_self (h : i ≤ j) (h' : j ≤ s.length) :
    slice s i j = s ↔ i = 0 ∧ j = s.length := by
  constructor
  · intro heq
    have hlen := length_slice (i := i) h'
    rw [heq] at hlen
    omega
  · rintro ⟨rfl, rfl⟩
    rw [slice, List.drop_zero, Nat.sub_zero, List.take_length]

theorem slice_eq_nil (h : i ≤ j) (h' : j ≤ s.length) : slice s i j = [] ↔ i = j := by
  rw [← List.length_eq_zero_iff, length_slice h']
  omega

theorem substring_ok (h : i ≤ j) (h' : j ≤ s.length) : substring s i j = .ok (slice s i j) :=
  if_pos ⟨h, h'⟩

/-- A part of a part. -/
theorem substring_slice (h : a + j ≤ b) (hb : b ≤ s.length) :
    substring (slice s a b) i j = substring s (a + i) (a + j) := by
  rw [substring, substring, slice_slice h, length_slice hb]
  refine if_congr ?_ rfl rfl
  omega

end Slices

end Idio.Regexp
