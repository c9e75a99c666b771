/-
  Lib/Positional.lean --- little-endian positional numerals over the integers.

  A numeral in base `B` is a list of digits, least significant first.  The three
  facts everything else rests on are

      value_lt_pow    a numeral of n digits is below B ^ n
      pow_le_value    and at least B ^ (n - 1) when its top digit is not zero
      value_inj       numerals of one length are equal when their values are

  so that, between numerals with no leading zero, length decides the order first
  and the digits, read from the top, decide the rest (`msdCompare_eq`).
-/
import Mathlib.Algebra.Order.Ring.Int
import Mathlib.Tactic.Linarith
import Mathlib.Tactic.Positivity
import Mathlib.Tactic.Ring

set_option autoImplicit false

namespace Positional

/-! ## Values -/

/-- The value of a little-endian numeral in base `B`. -/
def value (B : Int) : List Int → Int
  | [] => 0
  | d :: ds => d + B * value B ds

/-- Every digit is a digit of base `B`. -/
def Digits (B : Int) (ds : List Int) : Prop := ∀ d ∈ ds, 0 ≤ d ∧ d < B

/-- No leading zero: the top digit, if there is one, is not zero. -/
def Trimmed (ds : List Int) : Prop := ∀ h : ds ≠ [], ds.getLast h ≠ 0

@[simp] theorem value_nil (B : Int) : value B [] = 0 := rfl

@[simp] theorem value_cons (B d : Int) (ds : List Int) :
    value B (d :: ds) = d + B * value B ds := rfl

theorem value_append (B : Int) (xs ys : List Int) :
    value B (xs ++ ys) = value B xs + B ^ xs.length * value B ys := by
  induction xs with
  | nil => simp
  | cons x xs ih =>
    rw [List.cons_append, value_cons, ih, value_cons, List.length_cons, pow_succ]
    ring

@[simp] theorem digits_nil (B : Int) : Digits B [] := by
  intro d hd
  simp at hd

variable {d B : Int} {ds : List Int}

@[simp] theorem digits_cons :
    Digits B (d :: ds) ↔ (0 ≤ d ∧ d < B) ∧ Digits B ds := by
  simp [Digits]

variable {ys xs : List Int}

theorem digits_append :
    Digits B (xs ++ ys) ↔ Digits B xs ∧ Digits B ys := by
  simp only [Digits, List.mem_append]
  constructor
  · intro h
    exact ⟨fun d hd => h d (Or.inl hd), fun d hd => h d (Or.inr hd)⟩
  · rintro ⟨hx, hy⟩ d (hd | hd)
    · exact hx d hd
    · exact hy d hd

@[simp] theorem trimmed_nil : Trimmed [] := fun h => absurd rfl h

theorem trimmed_cons_cons {e : Int} :
    Trimmed (d :: e :: ds) ↔ Trimmed (e :: ds) := by
  simp [Trimmed]

@[simp] theorem trimmed_singleton : Trimmed [d] ↔ d ≠ 0 := by
  simp [Trimmed]

theorem trimmed_append_singleton :
    Trimmed (ds ++ [d]) ↔ d ≠ 0 := by
  simp [Trimmed]

theorem Trimmed.tail (h : Trimmed (d :: ds)) : Trimmed ds := by
  cases ds with
  | nil => exact trimmed_nil
  | cons e ds => exact trimmed_cons_cons.mp h

/-! ## Bounds -/

theorem value_nonneg (hB : 0 ≤ B) (h : Digits B ds) :
    0 ≤ value B ds := by
  induction ds with
  | nil => simp
  | cons d ds ih =>
    obtain ⟨⟨hd, -⟩, hds⟩ := digits_cons.mp h
    have := mul_nonneg hB (ih hds)
    rw [value_cons]
    omega

theorem value_lt_pow (h : Digits B ds) :
    value B ds < B ^ ds.length := by
  induction ds with
  | nil => simp
  | cons d ds ih =>
    obtain ⟨⟨hd, hdB⟩, hds⟩ := digits_cons.mp h
    have hstep : value B ds + 1 ≤ B ^ ds.length := ih hds
    have hmul := mul_le_mul_of_nonneg_left hstep (by omega : (0 : Int) ≤ B)
    rw [value_cons, List.length_cons, pow_succ]
    calc d + B * value B ds < B + B * value B ds := by omega
      _ = B * (value B ds + 1) := by ring
      _ ≤ B * B ^ ds.length := hmul
      _ = B ^ ds.length * B := by ring

theorem pow_le_value (hB : 0 < B) (h : Digits B ds) (ht : Trimmed ds) (hne : ds ≠ []) :
    B ^ (ds.length - 1) ≤ value B ds := by
  induction ds with
  | nil => exact absurd rfl hne
  | cons d ds ih =>
    obtain ⟨⟨hd, -⟩, hds⟩ := digits_cons.mp h
    cases ds with
    | nil =>
      have : d ≠ 0 := trimmed_singleton.mp ht
      simp only [List.length_singleton, Nat.sub_self, pow_zero, value_cons, value_nil]
      omega
    | cons e ds =>
      have hle := ih hds ht.tail (by simp)
      have hmul := mul_le_mul_of_nonneg_left hle hB.le
      rw [value_cons]
      simp only [List.length_cons, Nat.add_sub_cancel] at hmul ⊢
      calc B ^ (ds.length + 1) = B * B ^ ds.length := by ring
        _ ≤ B * value B (e :: ds) := hmul
        _ ≤ d + B * value B (e :: ds) := by omega

/-- The converse of `pow_le_value`: a value that large needs its top digit. -/
theorem trimmed_of_pow_le (h : Digits B ds) (hle : B ^ (ds.length - 1) ≤ value B ds) :
    Trimmed ds := by
  intro hne h0
  have hs : ds = ds.dropLast ++ [ds.getLast hne] := (List.dropLast_append_getLast hne).symm
  rw [h0] at hs
  rw [hs] at h
  have hlt := value_lt_pow (digits_append.mp h).1
  rw [hs, value_append] at hle
  simp only [List.length_append, List.length_singleton, Nat.add_sub_cancel, value_cons,
    value_nil] at hle
  omega

/-- Between numerals with no leading zero, the longer one is the larger. -/
theorem value_lt_of_length_lt (hB : 1 ≤ B) (hx : Digits B xs) (hy : Digits B ys) (ht : Trimmed ys)
    (hlen : xs.length < ys.length) : value B xs < value B ys := by
  have hne : ys ≠ [] := by
    rintro rfl
    simp at hlen
  calc value B xs < B ^ xs.length := value_lt_pow hx
    _ ≤ B ^ (ys.length - 1) := pow_le_pow_right₀ hB (by omega)
    _ ≤ value B ys := pow_le_value (by omega) hy ht hne

/-! ## Uniqueness -/

theorem digit_and_rest_inj {e v w : Int} (hd : 0 ≤ d ∧ d < B) (he : 0 ≤ e ∧ e < B)
    (h : d + B * v = e + B * w) : d = e ∧ v = w := by
  have hB : 0 < B := by omega
  have hdvd : d = e := by
    have h1 : (d + B * v) % B = d := by
      rw [Int.add_mul_emod_self_left, Int.emod_eq_of_lt hd.1 hd.2]
    have h2 : (e + B * w) % B = e := by
      rw [Int.add_mul_emod_self_left, Int.emod_eq_of_lt he.1 he.2]
    rw [← h1, ← h2, h]
  refine ⟨hdvd, ?_⟩
  have hmul : B * v = B * w := by omega
  exact Int.eq_of_mul_eq_mul_left (by omega) hmul

theorem value_inj (hx : Digits B xs) (hy : Digits B ys) (hlen : xs.length = ys.length)
    (h : value B xs = value B ys) : xs = ys := by
  induction xs generalizing ys with
  | nil =>
    cases ys with
    | nil => rfl
    | cons y ys => simp at hlen
  | cons x xs ih =>
    cases ys with
    | nil => simp at hlen
    | cons y ys =>
      obtain ⟨hx0, hxs⟩ := digits_cons.mp hx
      obtain ⟨hy0, hys⟩ := digits_cons.mp hy
      obtain ⟨rfl, hv⟩ := digit_and_rest_inj hx0 hy0 h
      rw [ih hxs hys (by simpa using hlen) hv]

/-- Numerals with no leading zero are determined by their value. -/
theorem trimmed_inj (hB : 1 ≤ B) (hx : Digits B xs) (hy : Digits B ys) (tx : Trimmed xs)
    (ty : Trimmed ys) (h : value B xs = value B ys) : xs = ys := by
  rcases Nat.lt_trichotomy xs.length ys.length with hlt | heq | hgt
  · exact absurd h (value_lt_of_length_lt hB hx hy ty hlt).ne
  · exact value_inj hx hy heq h
  · exact absurd h (value_lt_of_length_lt hB hy hx tx hgt).ne'

/-! ## Comparison from the most significant digit -/

/-- Compare two digit strings of one length, most significant digit first. -/
def msdCompare : List Int → List Int → Ordering
  | x :: xs, y :: ys =>
      if x < y then .lt else if y < x then .gt else msdCompare xs ys
  | _, _ => .eq

theorem value_reverse_cons (B d : Int) (ds : List Int) :
    value B (d :: ds).reverse = value B ds.reverse + B ^ ds.length * d := by
  rw [List.reverse_cons, value_append, List.length_reverse]
  simp

theorem digits_reverse (h : Digits B ds) :
    Digits B ds.reverse := by
  intro d hd
  exact h d (List.mem_reverse.mp hd)

/-- The first difference from the top decides the order of the values. -/
theorem msdCompare_eq (hx : Digits B xs) (hy : Digits B ys) (hlen : xs.length = ys.length) :
    msdCompare xs ys = compare (value B xs.reverse) (value B ys.reverse) := by
  induction xs generalizing ys with
  | nil =>
    cases ys with
    | nil => simp [msdCompare]
    | cons y ys => simp at hlen
  | cons x xs ih =>
    cases ys with
    | nil => simp at hlen
    | cons y ys =>
      obtain ⟨hx0, hxs⟩ := digits_cons.mp hx
      obtain ⟨hy0, hys⟩ := digits_cons.mp hy
      have hlen' : xs.length = ys.length := by simpa using hlen
      have hB : 0 ≤ B := by omega
      have hvx := value_nonneg hB (digits_reverse hxs)
      have hvy := value_nonneg hB (digits_reverse hys)
      have hxlt := value_lt_pow (digits_reverse hxs)
      have hylt := value_lt_pow (digits_reverse hys)
      rw [List.length_reverse] at hxlt hylt
      rw [value_reverse_cons, value_reverse_cons, msdCompare]
      split
      · rename_i hlt
        have := mul_le_mul_of_nonneg_left (by omega : x + 1 ≤ y) (pow_nonneg hB ys.length)
        rw [eq_comm, compare_lt_iff_lt, hlen']
        rw [hlen'] at hxlt
        linarith
      · split
        · rename_i hgt
          have := mul_le_mul_of_nonneg_left (by omega : y + 1 ≤ x) (pow_nonneg hB xs.length)
          rw [eq_comm, compare_gt_iff_gt, ← hlen']
          rw [← hlen'] at hylt
          linarith
        · have hxy : x = y := by omega
          subst hxy
          rw [ih hxs hys hlen', hlen']
          -- Both sides add the same top digit.
          rcases lt_trichotomy (value B xs.reverse) (value B ys.reverse) with h | h | h
          · rw [compare_lt_iff_lt.mpr h, eq_comm, compare_lt_iff_lt]
            linarith
          · rw [h]
            simp
          · rw [compare_gt_iff_gt.mpr h, eq_comm, compare_gt_iff_gt]
            linarith

end Positional
