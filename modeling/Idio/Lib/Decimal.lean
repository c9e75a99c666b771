/-
  Lib/Decimal.lean --- decimal significands and exponents.

  A decimal number is `m * 10 ^ e` for integers `m` and `e`.  The number of digits
  of `m` and the exponent together say where its first digit stands, and that
  decides most comparisons (`mul_zpow_lt_of_digits_lt`).  A significand that does
  not end in a zero determines its exponent (`mul_zpow_inj`).

  `truncate n q` is `q` cut off, towards zero, after its first `n` significant
  digits; on `m * 10 ^ e` it drops the digits of `m` beyond the first `n`
  (`truncate_mul_zpow`).
-/
import Mathlib.Algebra.Order.Field.Power
import Mathlib.Data.Int.Log
import Mathlib.Data.Nat.Digits.Lemmas
import Mathlib.Data.Rat.Floor
import Mathlib.Data.Sign.Basic
import Mathlib.Tactic.FieldSimp

set_option autoImplicit false

namespace Decimal

/-! ## The number of decimal digits -/

/-- The number of decimal digits of an integer that is not negative; zero has
none. -/
def decimalDigits (n : Int) : Nat := (Nat.digits 10 n.toNat).length

@[simp] theorem decimalDigits_zero : decimalDigits 0 = 0 := rfl

theorem decimalDigits_le_iff {n : Int} (h : 0 ≤ n) {k : Nat} :
    decimalDigits n ≤ k ↔ n < 10 ^ k := by
  obtain ⟨m, rfl⟩ := Int.eq_ofNat_of_zero_le h
  unfold decimalDigits
  rw [Int.toNat_natCast, Nat.digits_length_le_iff (by norm_num)]
  exact_mod_cast Iff.rfl

theorem lt_pow_decimalDigits {n : Int} (h : 0 ≤ n) : n < 10 ^ decimalDigits n :=
  (decimalDigits_le_iff h).mp (le_refl _)

theorem lt_decimalDigits_iff {n : Int} (h : 0 ≤ n) {k : Nat} :
    k < decimalDigits n ↔ 10 ^ k ≤ n := by
  rw [← not_le, decimalDigits_le_iff h, not_lt]

theorem decimalDigits_pos {n : Int} (h : 0 < n) : 0 < decimalDigits n :=
  (lt_decimalDigits_iff h.le).mpr (by rw [pow_zero]; omega)

theorem decimalDigits_succ {n : Int} (h : 0 < n) :
    decimalDigits n = decimalDigits (n / 10) + 1 := by
  obtain ⟨m, rfl⟩ := Int.eq_ofNat_of_zero_le h.le
  have hm : 0 < m := by omega
  have hdiv : ((m : Int) / 10).toNat = m / 10 := by omega
  simp only [decimalDigits, hdiv, Int.toNat_natCast]
  rw [Nat.digits_def' (by norm_num) hm, List.length_cons]

theorem decimalDigits_div_ten {n : Int} (h : 0 < n) :
    decimalDigits (n / 10) < decimalDigits n := by
  rw [decimalDigits_succ h]
  omega

theorem decimalDigits_mono {m n : Int} (h : m ≤ n) : decimalDigits m ≤ decimalDigits n :=
  Nat.le_length_digits_le 10 _ _ (by omega)

theorem decimalDigits_mul_ten {n : Int} (h : 0 < n) :
    decimalDigits (10 * n) = decimalDigits n + 1 := by
  rw [decimalDigits_succ (by omega), Int.mul_ediv_cancel_left n (by decide)]

theorem decimalDigits_mul_pow {n : Int} (h : 0 < n) (k : Nat) :
    decimalDigits (n * 10 ^ k) = decimalDigits n + k := by
  induction k with
  | zero => simp
  | succ k ih =>
    have hpos : 0 < n * 10 ^ k := by positivity
    rw [show n * 10 ^ (k + 1) = 10 * (n * 10 ^ k) by ring, decimalDigits_mul_ten hpos, ih]
    omega

/-- The digits of a number are those of its upper part and the places below. -/
theorem decimalDigits_add_mul_pow {v t : Int} {k : Nat} (hv : 0 ≤ v) (hlt : v < 10 ^ k)
    (ht : 0 < t) : decimalDigits (v + t * 10 ^ k) = decimalDigits t + k := by
  have hp : (0 : Int) < 10 ^ k := by positivity
  have hpos := decimalDigits_pos ht
  have hnn : 0 ≤ v + t * 10 ^ k := by positivity
  apply le_antisymm
  · rw [decimalDigits_le_iff hnn, pow_add]
    have := lt_pow_decimalDigits ht.le
    nlinarith
  · have hlow := (lt_decimalDigits_iff ht.le (k := decimalDigits t - 1)).mp (by omega)
    have hlt : decimalDigits t - 1 + k < decimalDigits (v + t * 10 ^ k) := by
      rw [lt_decimalDigits_iff hnn, pow_add]
      nlinarith
    omega

theorem decimalDigits_div_pow_le (n : Int) (k : Nat) (h : 0 ≤ n) :
    decimalDigits (n / 10 ^ (decimalDigits n - k)) ≤ k := by
  rw [decimalDigits_le_iff (by positivity)]
  apply Int.ediv_lt_of_lt_mul (by positivity)
  rw [← pow_add]
  calc n < 10 ^ decimalDigits n := lt_pow_decimalDigits h
    _ ≤ 10 ^ (k + (decimalDigits n - k)) := pow_le_pow_right₀ (by norm_num) (by omega)

/-- Trailing zeros can be split off. -/
theorem exists_mul_pow {n : Int} (h : 0 < n) :
    ∃ (d : Int) (t : Nat), n = d * 10 ^ t ∧ 0 < d ∧ d % 10 ≠ 0 := by
  induction hk : decimalDigits n generalizing n with
  | zero =>
    have := decimalDigits_pos h
    omega
  | succ k ih =>
    by_cases h0 : n % 10 = 0
    · have hdigits := decimalDigits_succ h
      obtain ⟨d, t, hn, hd, hne⟩ := ih (by omega : 0 < n / 10) (by omega)
      refine ⟨d, t + 1, ?_, hd, hne⟩
      have : n = n / 10 * 10 := by omega
      rw [this, hn]
      ring
    · exact ⟨n, 0, by simp, h, h0⟩

/-! ## Comparison -/

/-- A digit further to the left makes the larger number. -/
theorem mul_zpow_lt_of_digits_lt {m n e f : Int} (hm : 0 ≤ m) (hn : 0 < n)
    (h : decimalDigits m + e < decimalDigits n + f) :
    (m : ℚ) * 10 ^ e < n * 10 ^ f := by
  have hlt : (m : ℚ) < 10 ^ (decimalDigits m : Int) := by
    rw [zpow_natCast]
    exact_mod_cast lt_pow_decimalDigits hm
  have hpos := decimalDigits_pos hn
  have hge : (10 : ℚ) ^ ((decimalDigits n : Int) - 1) ≤ n := by
    rw [show (decimalDigits n : Int) - 1 = ((decimalDigits n - 1 : Nat) : Int) by omega,
      zpow_natCast]
    exact_mod_cast (lt_decimalDigits_iff hn.le).mp (by omega)
  calc (m : ℚ) * 10 ^ e < 10 ^ (decimalDigits m : Int) * 10 ^ e := by gcongr
    _ = 10 ^ (decimalDigits m + e) := by rw [zpow_add₀ (by norm_num)]
    _ ≤ 10 ^ ((decimalDigits n : Int) - 1 + f) :=
        zpow_le_zpow_right₀ (by norm_num) (by omega)
    _ = 10 ^ ((decimalDigits n : Int) - 1) * 10 ^ f := by rw [zpow_add₀ (by norm_num)]
    _ ≤ n * 10 ^ f := by gcongr

theorem mul_zpow_lt_iff {m n e : Int} : (m : ℚ) * 10 ^ e < n * 10 ^ e ↔ m < n := by
  have hpos : (0 : ℚ) < 10 ^ e := by positivity
  rw [mul_lt_mul_iff_left₀ hpos]
  exact_mod_cast Iff.rfl

theorem compare_mul_zpow (m n e : Int) :
    compare ((m : ℚ) * 10 ^ e) (n * 10 ^ e) = compare m n := by
  rcases lt_trichotomy m n with h | rfl | h
  · rw [compare_lt_iff_lt.mpr h, compare_lt_iff_lt, mul_zpow_lt_iff]
    exact h
  · simp
  · rw [compare_gt_iff_gt.mpr h, compare_gt_iff_gt, mul_zpow_lt_iff]
    exact h

/-- Moving zeros from the exponent to the significand. -/
theorem mul_zpow_shift {m e f : Int} (h : e ≤ f) :
    (m : ℚ) * 10 ^ f = ((m * 10 ^ (f - e).toNat : Int) : ℚ) * 10 ^ e := by
  push_cast
  rw [mul_assoc, ← zpow_natCast, ← zpow_add₀ (by norm_num), Int.toNat_of_nonneg (by omega)]
  congr 2
  omega

theorem mul_zpow_inj_of_le {m n e f : Int} (hm : m % 10 ≠ 0) (h : e ≤ f)
    (heq : (m : ℚ) * 10 ^ e = n * 10 ^ f) : m = n ∧ e = f := by
  have hpos : (10 : ℚ) ^ e ≠ 0 := by positivity
  rw [mul_zpow_shift h] at heq
  have hmn : m = n * 10 ^ (f - e).toNat := by
    exact_mod_cast mul_right_cancel₀ hpos heq
  have hef : e = f := by
    by_contra hne
    obtain ⟨k, hk⟩ : ∃ k, (f - e).toNat = k + 1 := ⟨(f - e).toNat - 1, by omega⟩
    rw [hk, pow_succ, ← mul_assoc] at hmn
    omega
  subst hef
  refine ⟨?_, rfl⟩
  simpa using hmn

/-- A significand that does not end in a zero determines the exponent. -/
theorem mul_zpow_inj {m n e f : Int} (hm : m % 10 ≠ 0) (hn : n % 10 ≠ 0)
    (heq : (m : ℚ) * 10 ^ e = n * 10 ^ f) : m = n ∧ e = f := by
  rcases le_total e f with h | h
  · exact mul_zpow_inj_of_le hm h heq
  · obtain ⟨h1, h2⟩ := mul_zpow_inj_of_le hn h heq.symm
    exact ⟨h1.symm, h2.symm⟩

/-- A number is one significand without a zero at its end and one exponent, zero being 0 and 0. -/
theorem canonical_inj {m n e f : Int} (hm : m % 10 ≠ 0 ∨ (m = 0 ∧ e = 0))
    (hn : n % 10 ≠ 0 ∨ (n = 0 ∧ f = 0)) (h : (m : ℚ) * 10 ^ e = n * 10 ^ f) :
    m = n ∧ e = f := by
  have hpow : ∀ i : Int, (10 : ℚ) ^ i ≠ 0 := fun i => zpow_ne_zero i (by norm_num)
  rcases hm with hm | ⟨rfl, rfl⟩ <;> rcases hn with hn | ⟨rfl, rfl⟩
  · exact mul_zpow_inj hm hn h
  · have hzero : (m : ℚ) = 0 := by simpa [hpow] using h
    have : m = 0 := by exact_mod_cast hzero
    omega
  · have hzero : (n : ℚ) = 0 := by simpa [hpow] using h.symm
    have : n = 0 := by exact_mod_cast hzero
    omega
  · exact ⟨rfl, rfl⟩

/-! ## Truncation to a number of significant digits -/

/-- The weight of the `n`-th significant digit of `q`. -/
def quantum (n : Nat) (q : ℚ) : ℚ := 10 ^ (Int.log 10 |q| + 1 - n)

/-- `q` cut off, towards zero, after its first `n` significant digits. -/
def truncate (n : Nat) (q : ℚ) : ℚ :=
  SignType.sign q * (⌊|q| / quantum n q⌋ * quantum n q)

theorem truncate_neg (n : Nat) (q : ℚ) : truncate n (- q) = - truncate n q := by
  simp [truncate, quantum, Left.sign_neg]

theorem truncate_nonneg (n : Nat) {q : ℚ} (h : 0 ≤ q) : 0 ≤ truncate n q := by
  unfold truncate
  have hq : 0 < quantum n q := by
    unfold quantum
    positivity
  have hfloor : 0 ≤ ⌊|q| / quantum n q⌋ := Int.floor_nonneg.mpr (by positivity)
  have hfloor' : (0 : ℚ) ≤ ⌊|q| / quantum n q⌋ := by exact_mod_cast hfloor
  rcases h.eq_or_lt with rfl | hpos
  · simp
  · rw [sign_pos hpos]
    simp only [SignType.coe_one, one_mul]
    positivity

theorem truncate_abs (n : Nat) (q : ℚ) : truncate n |q| = |truncate n q| := by
  rcases le_total 0 q with h | h
  · rw [abs_of_nonneg h, abs_of_nonneg (truncate_nonneg n h)]
  · have := truncate_nonneg n (neg_nonneg.mpr h)
    rw [truncate_neg] at this
    rw [abs_of_nonpos h, truncate_neg, abs_of_nonpos (neg_nonneg.mp this)]

theorem truncate_of_pos (n : Nat) {q : ℚ} (h : 0 < q) :
    truncate n q = ⌊q / 10 ^ (Int.log 10 q + 1 - n)⌋ * 10 ^ (Int.log 10 q + 1 - n) := by
  rw [truncate, quantum, sign_pos h, abs_of_pos h]
  simp

/-- Of positive numbers. -/
theorem truncate_mono_pos {n : Nat} (hn : 0 < n) {p q : ℚ} (hp : 0 < p) (h : p ≤ q) :
    truncate n p ≤ truncate n q := by
  have hq : 0 < q := hp.trans_le h
  rw [truncate_of_pos n hp, truncate_of_pos n hq]
  have hunit : ∀ e : Int, (0 : ℚ) < 10 ^ e := fun e => by positivity
  rcases (Int.log_mono_right (b := 10) hp h).eq_or_lt with heq | hlt
  · rw [heq]
    refine mul_le_mul_of_nonneg_right ?_ (hunit _).le
    exact_mod_cast Int.floor_le_floor (div_le_div_of_nonneg_right h (hunit _).le)
  · -- the larger one has a digit more, and is not less than a power of ten of the smaller one's size
    have hbelow : (⌊p / 10 ^ (Int.log 10 p + 1 - n)⌋ : ℚ) * 10 ^ (Int.log 10 p + 1 - n) ≤
        10 ^ Int.log 10 q := by
      calc _ ≤ p := by
            rw [← le_div_iff₀ (hunit _)]
            exact Int.floor_le _
        _ ≤ 10 ^ (Int.log 10 p + 1) := (Int.lt_zpow_succ_log_self (by decide) p).le
        _ ≤ 10 ^ Int.log 10 q := zpow_le_zpow_right₀ (by norm_num) (by omega)
    have hpower : (10 : ℚ) ^ Int.log 10 q =
        ((10 ^ (n - 1) : Int) : ℚ) * 10 ^ (Int.log 10 q + 1 - n) := by
      push_cast
      rw [← zpow_natCast, ← zpow_add₀ (by norm_num), Nat.cast_sub hn]
      congr 1
      push_cast
      ring
    have hlow : (10 : ℚ) ^ Int.log 10 q ≤ q := Int.zpow_log_le_self (by decide) hq
    refine hbelow.trans ?_
    rw [hpower] at hlow ⊢
    refine mul_le_mul_of_nonneg_right ?_ (hunit _).le
    exact_mod_cast Int.le_floor.mpr ((le_div_iff₀ (hunit _)).mpr hlow)

/-- Cutting off digits keeps the order. -/
theorem truncate_mono {n : Nat} (hn : 0 < n) {p q : ℚ} (h : p ≤ q) :
    truncate n p ≤ truncate n q := by
  have hnonpos : ∀ {x : ℚ}, x ≤ 0 → truncate n x ≤ 0 := by
    intro x hx
    rw [← neg_neg x, truncate_neg, Left.neg_nonpos_iff]
    exact truncate_nonneg n (neg_nonneg.mpr hx)
  rcases lt_or_ge 0 p with hp | hp
  · exact truncate_mono_pos hn hp h
  · rcases lt_or_ge q 0 with hq | hq
    · have := truncate_mono_pos hn (neg_pos.mpr hq) (neg_le_neg h)
      rwa [truncate_neg, truncate_neg, neg_le_neg_iff] at this
    · exact (hnonpos hp).trans (truncate_nonneg n hq)

theorem floor_pos_bounds {x : ℚ} (h : 0 < ⌊x⌋) :
    (10 : ℚ) ^ (decimalDigits ⌊x⌋ - 1) ≤ x ∧ x < 10 ^ decimalDigits ⌊x⌋ := by
  have hd := decimalDigits_pos h
  have hlow : (10 : Int) ^ (decimalDigits ⌊x⌋ - 1) ≤ ⌊x⌋ :=
    (lt_decimalDigits_iff h.le).mp (by omega)
  have hhigh : ⌊x⌋ + 1 ≤ (10 : Int) ^ decimalDigits ⌊x⌋ := lt_pow_decimalDigits h.le
  constructor
  · calc (10 : ℚ) ^ (decimalDigits ⌊x⌋ - 1) ≤ (⌊x⌋ : ℚ) := by exact_mod_cast hlow
      _ ≤ x := Int.floor_le x
  · calc x < ⌊x⌋ + 1 := Int.lt_floor_add_one x
      _ ≤ 10 ^ decimalDigits ⌊x⌋ := by exact_mod_cast hhigh

theorem log_mul_zpow_of_floor {x : ℚ} (h : 0 < ⌊x⌋) (e : Int) :
    Int.log 10 (x * 10 ^ e) = decimalDigits ⌊x⌋ - 1 + e := by
  obtain ⟨hlow, hhigh⟩ := floor_pos_bounds h
  have hx : 0 < x := lt_of_lt_of_le (by positivity) hlow
  have hpos : 0 < x * 10 ^ e := by positivity
  have hd := decimalDigits_pos h
  have hge : (decimalDigits ⌊x⌋ : Int) - 1 + e ≤ Int.log 10 (x * 10 ^ e) := by
    rw [← Int.zpow_le_iff_le_log (by norm_num) hpos, zpow_add₀ (by norm_num)]
    push_cast
    gcongr
    rw [show (decimalDigits ⌊x⌋ : Int) - 1 = ((decimalDigits ⌊x⌋ - 1 : Nat) : Int) by omega,
      zpow_natCast]
    exact hlow
  have hlt : Int.log 10 (x * 10 ^ e) < decimalDigits ⌊x⌋ + e := by
    rw [← Int.lt_zpow_iff_log_lt (by norm_num) hpos, zpow_add₀ (by norm_num)]
    push_cast
    gcongr
    rw [zpow_natCast]
    exact hhigh
  omega

theorem log_mul_zpow {m : Int} (hm : 0 < m) (e : Int) :
    Int.log 10 ((m : ℚ) * 10 ^ e) = decimalDigits m - 1 + e := by
  have h := log_mul_zpow_of_floor (x := m) (by rwa [Int.floor_intCast]) e
  rwa [Int.floor_intCast] at h

theorem floor_mul_pow_div {m : Int} (j k : Nat) :
    ⌊(m : ℚ) * 10 ^ j / 10 ^ k⌋ = m * 10 ^ j / 10 ^ k := by
  have h := Rat.floor_intCast_div_natCast (m * 10 ^ j) (10 ^ k)
  push_cast at h
  exact h

/-- Truncation drops the digits beyond the first `n`. -/
theorem truncate_mul_zpow {m : Int} (hm : 0 ≤ m) (n : Nat) (e : Int) :
    truncate n ((m : ℚ) * 10 ^ e) =
      ((m / 10 ^ (decimalDigits m - n) : Int) : ℚ) * 10 ^ (e + (decimalDigits m - n : Nat)) := by
  rcases hm.eq_or_lt with rfl | hpos
  · simp [truncate]
  · have hmq : (0 : ℚ) < m := by exact_mod_cast hpos
    have hq : (0 : ℚ) < m * 10 ^ e := by positivity
    have hquantum : quantum n ((m : ℚ) * 10 ^ e) = 10 ^ ((decimalDigits m : Int) + e - n) := by
      rw [quantum, abs_of_pos hq, log_mul_zpow hpos]
      congr 1
      ring
    rw [truncate, sign_pos hq, hquantum, abs_of_pos hq]
    rcases le_total n (decimalDigits m) with h | h
    · -- Digits to drop: the quotient is that of the significand.
      obtain ⟨k, hk⟩ := Nat.exists_eq_add_of_le h
      have hexp : (decimalDigits m : Int) + e - n = e + k := by omega
      have hdiv : (m : ℚ) * 10 ^ e / 10 ^ (e + (k : Int)) = m * 10 ^ 0 / 10 ^ k := by
        rw [zpow_add₀ (by norm_num), zpow_natCast]
        field_simp
      rw [hexp, hdiv, floor_mul_pow_div, hk, Nat.add_sub_cancel_left, pow_zero, mul_one]
      simp
    · -- Nothing to drop: the quotient is the significand with zeros appended.
      obtain ⟨k, hk⟩ := Nat.exists_eq_add_of_le h
      have hexp : (decimalDigits m : Int) + e - n = e - k := by omega
      have hdiv : (m : ℚ) * 10 ^ e / 10 ^ (e - (k : Int)) = m * 10 ^ k / 10 ^ 0 := by
        rw [zpow_sub₀ (by norm_num), zpow_natCast]
        field_simp
      rw [hexp, hdiv, floor_mul_pow_div, Nat.sub_eq_zero_of_le h]
      push_cast
      rw [zpow_sub₀ (by norm_num), zpow_natCast]
      simp
      field_simp

/-- What has at most `n` digits is not changed. -/
theorem truncate_mul_zpow_of_le {m : Int} (hm : 0 ≤ m) {n : Nat} (h : decimalDigits m ≤ n)
    (e : Int) : truncate n ((m : ℚ) * 10 ^ e) = m * 10 ^ e := by
  rw [truncate_mul_zpow hm, Nat.sub_eq_zero_of_le h]
  simp

/-- What is below the digits kept does not count. -/
theorem truncate_floor {x : ℚ} (h : 0 < ⌊x⌋) {n : Nat} (hn : n ≤ decimalDigits ⌊x⌋) (e : Int) :
    truncate n (x * 10 ^ e) = truncate n ((⌊x⌋ : ℚ) * 10 ^ e) := by
  obtain ⟨k, hk⟩ := Nat.exists_eq_add_of_le hn
  have hx : 0 < x := lt_of_lt_of_le (by positivity) (floor_pos_bounds h).1
  have hpos : 0 < x * 10 ^ e := by positivity
  have hexp : (decimalDigits ⌊x⌋ : Int) - 1 + e + 1 - n = e + k := by omega
  have hquantum : quantum n (x * 10 ^ e) = 10 ^ (e + (k : Int)) := by
    rw [quantum, abs_of_pos hpos, log_mul_zpow_of_floor h, hexp]
  have hdiv : x * 10 ^ e / 10 ^ (e + (k : Int)) = x / ((10 ^ k : Nat) : ℚ) := by
    rw [zpow_add₀ (by norm_num), zpow_natCast]
    push_cast
    field_simp
  rw [truncate_mul_zpow h.le, truncate, sign_pos hpos, hquantum, abs_of_pos hpos, hdiv,
    Int.floor_div_natCast, show decimalDigits ⌊x⌋ - n = k by omega]
  simp

end Decimal
