/-
  Lib/DigitString.lean --- decimal digit strings, most significant digit first.

  A digit string is read by taking ten times the value so far and adding the next
  digit (`digitValue`).  `digitsOf n` is the string of a natural number with no
  leading zero, `padded w n` that string filled up with zeros to the width `w`.
-/
import Mathlib.Data.Nat.Digits.Lemmas
import Mathlib.Tactic.Ring

set_option autoImplicit false

namespace DigitString

/-! ## Digit characters -/

/-- The character of a digit. -/
def digitChar (d : Nat) : Char := Char.ofNat (48 + d)

/-- The digit of a character. -/
def charDigit (c : Char) : Nat := c.toNat - 48

/-- Decimal digits. -/
def AllDigits (ds : List Nat) : Prop := ∀ d ∈ ds, d < 10

@[simp] theorem allDigits_nil : AllDigits [] := by
  intro d hd
  simp at hd

@[simp] theorem allDigits_cons {d : Nat} {ds : List Nat} :
    AllDigits (d :: ds) ↔ d < 10 ∧ AllDigits ds := by
  simp [AllDigits]

theorem allDigits_append {xs ys : List Nat} :
    AllDigits (xs ++ ys) ↔ AllDigits xs ∧ AllDigits ys := by
  simp only [AllDigits, List.mem_append]
  exact ⟨fun h => ⟨fun d hd => h d (Or.inl hd), fun d hd => h d (Or.inr hd)⟩,
    fun ⟨hx, hy⟩ d hd => hd.elim (hx d) (hy d)⟩

theorem isDigit_digitChar {d : Nat} (h : d < 10) : (digitChar d).isDigit = true := by
  revert d
  decide

theorem charDigit_digitChar {d : Nat} (h : d < 10) : charDigit (digitChar d) = d := by
  revert d
  decide

/-! ## Values -/

/-- The value of a digit string read from the left. -/
def digitValue (ds : List Nat) : Nat := ds.foldl (fun acc d => 10 * acc + d) 0

theorem foldl_digits (ds : List Nat) (acc : Nat) :
    ds.foldl (fun acc d => 10 * acc + d) acc = acc * 10 ^ ds.length + digitValue ds := by
  induction ds generalizing acc with
  | nil => simp [digitValue]
  | cons d ds ih =>
    have hd : digitValue (d :: ds) = d * 10 ^ ds.length + digitValue ds := by
      rw [digitValue, List.foldl_cons, ih]
      ring
    rw [List.foldl_cons, ih, hd, List.length_cons, pow_succ]
    ring

@[simp] theorem digitValue_nil : digitValue [] = 0 := rfl

theorem digitValue_append (xs ys : List Nat) :
    digitValue (xs ++ ys) = digitValue xs * 10 ^ ys.length + digitValue ys := by
  rw [digitValue, List.foldl_append, foldl_digits ys]
  rfl

theorem digitValue_cons (d : Nat) (ds : List Nat) :
    digitValue (d :: ds) = d * 10 ^ ds.length + digitValue ds := by
  have h := digitValue_append [d] ds
  simpa [digitValue] using h

theorem digitValue_lt {ds : List Nat} (h : AllDigits ds) : digitValue ds < 10 ^ ds.length := by
  induction ds with
  | nil => simp
  | cons d ds ih =>
    obtain ⟨hd, hds⟩ := allDigits_cons.mp h
    have := ih hds
    have hmul : (d + 1) * 10 ^ ds.length ≤ 10 * 10 ^ ds.length :=
      Nat.mul_le_mul_right _ (by omega)
    rw [digitValue_cons, List.length_cons, pow_succ]
    calc d * 10 ^ ds.length + digitValue ds < d * 10 ^ ds.length + 10 ^ ds.length := by omega
      _ = (d + 1) * 10 ^ ds.length := by ring
      _ ≤ 10 ^ ds.length * 10 := by rw [mul_comm (10 ^ ds.length)]; exact hmul

/-! ## The string of a number -/

/-- The decimal digits of a natural number. -/
def digitsOf (n : Nat) : List Nat := if n = 0 then [0] else (Nat.digits 10 n).reverse

/-- The decimal digits of a natural number, filled up with zeros from the left. -/
def padded (w n : Nat) : List Nat := List.replicate (w - (digitsOf n).length) 0 ++ digitsOf n

theorem digitValue_reverse (l : List Nat) : digitValue l.reverse = Nat.ofDigits 10 l := by
  induction l with
  | nil => rfl
  | cons d l ih =>
    rw [List.reverse_cons, digitValue_append, ih, Nat.ofDigits_cons]
    simp [digitValue]
    ring

theorem digitValue_digitsOf (n : Nat) : digitValue (digitsOf n) = n := by
  unfold digitsOf
  split
  · rename_i h0
    rw [h0]
    rfl
  · rw [digitValue_reverse, Nat.ofDigits_digits]

theorem allDigits_digitsOf (n : Nat) : AllDigits (digitsOf n) := by
  unfold digitsOf
  split
  · simp
  · intro d hd
    exact Nat.digits_lt_base (by norm_num) (List.mem_reverse.mp hd)

theorem digitsOf_length (n : Nat) : (digitsOf n).length = max 1 (Nat.digits 10 n).length := by
  unfold digitsOf
  split
  · rename_i h0
    simp [h0]
  · rename_i h0
    have : 0 < (Nat.digits 10 n).length :=
      List.length_pos_of_ne_nil (Nat.digits_ne_nil_iff_ne_zero.mpr h0)
    rw [List.length_reverse]
    omega

theorem digitsOf_ne_nil (n : Nat) : digitsOf n ≠ [] := by
  apply List.ne_nil_of_length_pos
  rw [digitsOf_length]
  omega

/-- No leading zero. -/
theorem digitsOf_head {n : Nat} (h : n ≠ 0) : ∃ d ds, digitsOf n = d :: ds ∧ d ≠ 0 := by
  have hne : Nat.digits 10 n ≠ [] := Nat.digits_ne_nil_iff_ne_zero.mpr h
  have hlast := Nat.getLast_digit_ne_zero 10 h
  obtain ⟨d, ds, hds⟩ := List.exists_cons_of_ne_nil (digitsOf_ne_nil n)
  refine ⟨d, ds, hds, ?_⟩
  rw [digitsOf, if_neg h] at hds
  have hrev : Nat.digits 10 n = ds.reverse ++ [d] := by
    rw [← List.reverse_reverse (Nat.digits 10 n), hds, List.reverse_cons]
  simp only [hrev, List.getLast_append_singleton] at hlast
  exact hlast

/-- A string without a leading zero is the string of its value. -/
theorem digitsOf_digitValue {d : Nat} {ds : List Nat} (h : AllDigits (d :: ds)) (hd : d ≠ 0) :
    digitsOf (digitValue (d :: ds)) = d :: ds := by
  have hne : digitValue (d :: ds) ≠ 0 := by
    have hpos : 0 < d * 10 ^ ds.length := Nat.mul_pos (by omega) (by positivity)
    rw [digitValue_cons]
    omega
  have hvalue : digitValue (d :: ds) = Nat.ofDigits 10 (d :: ds).reverse := by
    rw [← digitValue_reverse, List.reverse_reverse]
  have hdigits : Nat.digits 10 (digitValue (d :: ds)) = (d :: ds).reverse := by
    rw [hvalue]
    apply Nat.digits_ofDigits 10 (by norm_num)
    · intro e he
      exact h e (List.mem_reverse.mp he)
    · intro hnil
      simpa using hd
  rw [digitsOf, if_neg hne, hdigits, List.reverse_reverse]

theorem digitValue_replicate_zero (k : Nat) (ds : List Nat) :
    digitValue (List.replicate k 0 ++ ds) = digitValue ds := by
  induction k with
  | zero => simp
  | succ k ih => rw [List.replicate_succ, List.cons_append, digitValue_cons, ih]; simp

theorem digitValue_padded (w n : Nat) : digitValue (padded w n) = n := by
  rw [padded, digitValue_replicate_zero, digitValue_digitsOf]

theorem allDigits_padded (w n : Nat) : AllDigits (padded w n) := by
  refine allDigits_append.mpr ⟨?_, allDigits_digitsOf n⟩
  intro d hd
  rw [List.eq_of_mem_replicate hd]
  norm_num

theorem padded_length {w n : Nat} (hw : 0 < w) (h : n < 10 ^ w) : (padded w n).length = w := by
  have hlen : (digitsOf n).length ≤ w := by
    have := (Nat.digits_length_le_iff (by norm_num : 1 < 10) n).mpr h
    rw [digitsOf_length]
    omega
  rw [padded, List.length_append, List.length_replicate]
  omega

end DigitString
