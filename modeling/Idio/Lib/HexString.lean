/-
  Lib/HexString.lean --- hexadecimal digit strings, most significant digit first.
-/
import Mathlib.Data.Nat.Digits.Lemmas

set_option autoImplicit false

namespace HexString

/-- The digits of a number to base 16, without leading zeros. -/
def hexDigits (n : Nat) : List Nat := if n = 0 then [0] else (Nat.digits 16 n).reverse

/-- The character of a digit, as `printf` writes it. -/
def hexChar (d : Nat) : Char := "0123456789abcdef".toList.getD d '0'

theorem hexDigits_lt (n : Nat) : ∀ d ∈ hexDigits n, d < 16 := by
  unfold hexDigits
  split
  · simp
  · intro d hd
    exact Nat.digits_lt_base (by norm_num) (List.mem_reverse.mp hd)

theorem hexDigits_ne_nil (n : Nat) : hexDigits n ≠ [] := by
  unfold hexDigits
  split
  · simp
  · rename_i h
    rw [ne_eq, List.reverse_eq_nil_iff]
    exact Nat.digits_ne_nil_iff_ne_zero.mpr h

theorem foldl_reverse_digits (l : List Nat) :
    l.reverse.foldl (fun acc d => acc * 16 + d) 0 = Nat.ofDigits 16 l := by
  induction l with
  | nil => rfl
  | cons d l ih =>
    rw [List.reverse_cons, List.foldl_append, ih, Nat.ofDigits_cons]
    simp only [List.foldl_cons, List.foldl_nil]
    omega

/-- Reading the digits from the left gives the number. -/
theorem foldl_hexDigits (n : Nat) : (hexDigits n).foldl (fun acc d => acc * 16 + d) 0 = n := by
  unfold hexDigits
  split
  · rename_i h
    rw [h]
    rfl
  · rw [foldl_reverse_digits, Nat.ofDigits_digits]

theorem hexDigits_length_le {n k : Nat} (hk : 0 < k) (h : n < 16 ^ k) :
    (hexDigits n).length ≤ k := by
  unfold hexDigits
  split
  · exact hk
  · rw [List.length_reverse]
    exact (Nat.digits_length_le_iff (by norm_num) n).mpr h

/-- No digit is one of the characters `c` that are not digits. -/
theorem hexChar_ne {d : Nat} (hd : d < 16) :
    hexChar d ≠ ' ' ∧ hexChar d ≠ '\t' ∧ hexChar d ≠ '\n' ∧ hexChar d ≠ '\r' ∧
      hexChar d ≠ '}' ∧ hexChar d ≠ ':' ∧ hexChar d ≠ '-' ∧ hexChar d ≠ '+' := by
  revert d
  decide

end HexString
