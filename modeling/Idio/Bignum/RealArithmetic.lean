/-
  Bignum/RealArithmetic.lean --- addition, subtraction and multiplication of reals.

  `realAdd` brings its operands to the smaller exponent, within 36 digits, adds the
  significands as integers and normalises the sum.  Where 36 digits do not suffice
  it returns the operand of larger magnitude.

  The room for scaling is tested with a difference of two `int32_t` exponents.  The
  difference of two such exponents need not be one, so `realAdd_outcome` asks for
  exponents whose difference is; `normalize` raises when the sum has an exponent
  beyond `IDIO_BE_MAX`.
-/
import Idio.Bignum.RealCompare

set_option autoImplicit false

namespace Idio

namespace Bignum

open Decimal

/-! ## The source -/

/-- `idio_bignum_copy_to_integer`, negated for a negative real. -/
def signedInteger (ra : Bignum) : Bignum :=
  if realNegativeP ra then negate (copyToInteger ra) else copyToInteger ra

/-- The end of `idio_bignum_real_add`, on operands of one exponent. -/
def scaledAdd (ra1 rb1 : Bignum) : Result Bignum := do
  let rI ← add (signedInteger ra1) (signedInteger rb1)
  normalize (real { BignumFlags.none with realNegative := negativeP rI } ra1.exp (abs rI).sig)

/-- `idio_bignum_real_add`. -/
def realAdd (a b : Bignum) : Result Bignum :=
  if a.flags.integer && b.flags.integer then add a b
  else do
    let ra0 ← realArgument a
    let rb0 ← realArgument b
    if realZeroP ra0 then pure rb0
    else if realZeroP rb0 then pure ra0
    else do
      let rb1 ←
        if ra0.exp < rb0.exp then scaleSignificand rb0 ra0.exp (sigMaxDigits * 2)
        else .ok (some rb0)
      let ra1 ←
        if ra0.exp > rb0.exp then scaleSignificand ra0 rb0.exp (sigMaxDigits * 2)
        else .ok (some ra0)
      match ra1, rb1 with
      | some ra1, some rb1 => scaledAdd ra1 rb1
      | _, _ => (realLtP (realAbs ra0) (realAbs rb0)).map fun lt => if lt then b else a

/-- `idio_bignum_real_subtract`. -/
def realSubtract (a b : Bignum) : Result Bignum :=
  realAdd a (if b.flags.integer then negate b else realNegate b)

/-- The sum of two exponents in `idio_bignum_real_multiply`, tested before it is
formed. -/
def addExponents (expa expb : Int) : Result Int :=
  if expb > 0 then
    if expb > beMax then .error exponentOverflow
    else if expa > 0 ∧ expb > beMax - expa then .error exponentOverflow
    else .ok (expa + expb)
  else if expb < 0 then
    if expb < beMin then .error (.bignumConversionError "exponent underflow")
    else if expa < 0 ∧ |expb| > |beMin - expa| then
      .error (.bignumConversionError "exponent underflow")
    else .ok (expa + expb)
  else .ok expa

/-- `idio_bignum_real_multiply`. -/
def realMultiply (a b : Bignum) : Result Bignum :=
  if a.flags.integer && b.flags.integer then multiply a b
  else do
    let ra ← realArgument a
    if realZeroP ra then pure ra
    else do
      let rb ← realArgument b
      if realZeroP rb then pure rb
      else do
        let neg := realNegativeP ra != realNegativeP rb
        let exp ← addExponents ra.exp rb.exp
        let rI ← multiply (copyToInteger ra) (copyToInteger rb)
        normalize (real { BignumFlags.none with realNegative := neg } exp rI.sig)

/-! ## The sum of scaled operands -/

theorem HasMagnitude.realZeroP_eq {bn : Bignum} {n : Int} (h : HasMagnitude bn n) :
    realZeroP bn = decide (n = 0) := by
  rw [← h.zeroP_eq]
  have hpos := List.length_pos_of_ne_nil h.magnitude.nonempty
  unfold realZeroP zeroP
  split
  · rename_i hlen
    simp [show bn.sig.length ≠ 1 by omega]
  · simp [show bn.sig.length = 1 by omega]

theorem HasMagnitude.signedInteger {bn : Bignum} {n : Int} (h : HasMagnitude bn n) :
    IsInt (signedInteger bn) (if realNegativeP bn then - n else n) := by
  unfold Bignum.signedInteger
  split
  · exact h.isInt.negate
  · exact h.isInt

/-- The result is the normal real of the number `q` cut off after 18 significant
digits, or the condition that there is none. -/
def TruncatedOrOverflow (q : ℚ) (res : Result Bignum) : Prop :=
  (∃ r : NormalReal, res = .ok r.bn ∧ r.toRat = truncate sigMaxDigits q) ∨
    (res = .error exponentOverflow ∧ ∀ r : NormalReal, r.toRat ≠ truncate sigMaxDigits q)

/-- The end of `idio_bignum_real_add` forms the sum and normalises it. -/
theorem scaledAdd_outcome {ra1 rb1 : Bignum} {x y : Int} (ha : HasMagnitude ra1 x)
    (hb : HasMagnitude rb1 y) (hexp : beMin ≤ ra1.exp ∧ ra1.exp ≤ beMax) :
    TruncatedOrOverflow
      ((((if realNegativeP ra1 then - x else x) + if realNegativeP rb1 then - y else y : Int) : ℚ) *
        10 ^ ra1.exp)
      (scaledAdd ra1 rb1) := by
  obtain ⟨rI, hrun, hi⟩ := add_isInt ha.signedInteger hb.signedInteger
  generalize (if realNegativeP ra1 then - x else x) + (if realNegativeP rb1 then - y else y) = n
    at hi ⊢
  have hm : HasMagnitude (abs rI) |n| := hi.abs.hasMagnitude (abs_nonneg n)
  have hm' : HasMagnitude
      (real { BignumFlags.none with realNegative := negativeP rI } ra1.exp (abs rI).sig) |n| :=
    ⟨hm.magnitude, hm.toInt_eq⟩
  have hneg : negativeP rI = decide (n < 0) := hi.negativeP_eq
  have habs : ((|n| : Int) : ℚ) * 10 ^ ra1.exp = |(n : ℚ) * 10 ^ ra1.exp| := by
    rw [abs_mul, abs_of_pos (by positivity : (0 : ℚ) < 10 ^ ra1.exp), Int.cast_abs]
  have hres : scaledAdd ra1 rb1 =
      normalize (real { BignumFlags.none with realNegative := negativeP rI } ra1.exp
        (abs rI).sig) := by
    rw [scaledAdd, hrun]
    rfl
  rw [hres]
  rcases normalize_outcome hm' hexp with ⟨r, hr, hrneg, -, hval⟩ | ⟨hr, hnone⟩
  · refine Or.inl ⟨r, hr, ?_⟩
    have hrneg' : r.negative = decide (n < 0) := hrneg.trans hneg
    have hval' : r.absRat = truncate sigMaxDigits (((|n| : Int) : ℚ) * 10 ^ ra1.exp) := hval
    unfold NormalReal.toRat
    rw [hrneg', hval']
    by_cases hn : n < 0
    · have : ((|n| : Int) : ℚ) * 10 ^ ra1.exp = - ((n : ℚ) * 10 ^ ra1.exp) := by
        rw [abs_of_neg hn]
        push_cast
        ring
      rw [decide_eq_true hn, if_pos rfl, this, truncate_neg, neg_neg]
    · rw [decide_eq_false hn, if_neg (by simp), abs_of_nonneg (not_lt.mp hn)]
  · refine Or.inr ⟨hr, fun r h => hnone r ?_⟩
    show r.absRat = truncate sigMaxDigits (((|n| : Int) : ℚ) * 10 ^ ra1.exp)
    rw [habs, truncate_abs, ← h, r.abs_toRat]

/-! ## Addition -/

theorem NormalReal.toRat_truncate (r : NormalReal) : truncate sigMaxDigits r.toRat = r.toRat := by
  have habs := truncate_mul_zpow_of_le r.sig_range.1 r.digits_le r.exp
  rcases r.toRat_nonneg_or with ⟨-, -, -, hr⟩ | ⟨-, hr⟩
  · rw [hr, truncate_neg, NormalReal.absRat, habs]
  · rw [hr, NormalReal.absRat, habs]

/-- Bringing `a`, of the larger exponent, to the exponent of `b` takes more than
`2 * sigMaxDigits` digits. -/
def NormalReal.Above (a b : NormalReal) : Prop :=
  b.exp < a.exp ∧ 2 * sigMaxDigits < decimalDigits a.sig + a.exp - b.exp

/-- The operands, neither of them zero, are too far apart to be added. -/
def NormalReal.FarApart (a b : NormalReal) : Prop :=
  a.sig ≠ 0 ∧ b.sig ≠ 0 ∧ (a.Above b ∨ b.Above a)

/-- What `idio_bignum_real_add` does with normal reals: the operand of larger
magnitude when they are far apart, else the sum truncated to 18 digits, or
`exponent overflow` when no normal real has that value. -/
def SumOutcome (a b : NormalReal) (res : Result Bignum) : Prop :=
  (a.FarApart b → ∃ r : NormalReal, res = .ok r.bn ∧ (r = a ∨ r = b) ∧
    |a.toRat| ≤ |r.toRat| ∧ |b.toRat| ≤ |r.toRat|) ∧
  (¬ a.FarApart b → TruncatedOrOverflow (a.toRat + b.toRat) res)

theorem NormalReal.realNegate_bn (r : NormalReal) :
    ∃ s : NormalReal, realNegate r.bn = s.bn ∧ s.toRat = - r.toRat ∧
      s.sig = r.sig ∧ s.exp = r.exp := by
  refine ⟨{ r with negative := !realNegativeP r.bn }, rfl, ?_, rfl, rfl⟩
  rw [r.realNegativeP_eq]
  rcases r.toRat_nonneg_or with ⟨-, -, hneg, hr⟩ | ⟨hpos, hr⟩
  · rw [decide_eq_true hneg, hr, neg_neg]
    rfl
  · rw [decide_eq_false (not_lt.mpr hpos), hr]
    rfl

theorem NormalReal.realAbs_bn (r : NormalReal) :
    ∃ s : NormalReal, realAbs r.bn = s.bn ∧ s.toRat = |r.toRat| := by
  obtain ⟨s, hs, hval, -, -⟩ := r.realNegate_bn
  unfold realAbs
  rw [r.integer_eq, r.realNegativeP_eq, if_neg (by simp)]
  by_cases hneg : r.toRat < 0
  · exact ⟨s, by rw [decide_eq_true hneg, if_pos rfl, hs], by rw [hval, abs_of_neg hneg]⟩
  · exact ⟨r, by rw [decide_eq_false hneg, if_neg (by simp)],
      by rw [abs_of_nonneg (not_lt.mp hneg)]⟩

/-- The comparison at the end of `idio_bignum_real_add`. -/
theorem larger_spec (a b : NormalReal) :
    ∃ r : NormalReal, ((realLtP (realAbs a.bn) (realAbs b.bn)).map fun lt =>
        if lt then b.bn else a.bn) = .ok r.bn ∧ (r = a ∨ r = b) ∧
      |a.toRat| ≤ |r.toRat| ∧ |b.toRat| ≤ |r.toRat| := by
  obtain ⟨a', ha, hav⟩ := a.realAbs_bn
  obtain ⟨b', hb, hbv⟩ := b.realAbs_bn
  rw [ha, hb, realLtP_normal, hav, hbv]
  by_cases hlt : |a.toRat| < |b.toRat|
  · exact ⟨b, by simp [hlt, Except.map], Or.inr rfl, hlt.le, le_refl _⟩
  · exact ⟨a, by simp [hlt, Except.map], Or.inl rfl, le_refl _, not_lt.mp hlt⟩

/-- Scaling a normal real to the exponent of another, within 36 digits. -/
theorem NormalReal.scale_spec {a b : NormalReal} (ha : a.sig ≠ 0) (hlt : b.exp < a.exp)
    (hdiff : a.exp - b.exp ≤ beMax) :
    (a.Above b ∧ scaleSignificand a.bn b.exp (sigMaxDigits * 2) = .ok none) ∨
      (¬ a.Above b ∧ ∃ w, scaleSignificand a.bn b.exp (sigMaxDigits * 2) = .ok (some w) ∧
        w.exp = b.exp ∧ realNegativeP w = realNegativeP a.bn ∧
        HasMagnitude w (a.sig * 10 ^ (a.exp - b.exp).toNat)) := by
  have ha0 : 0 < a.sig := lt_of_le_of_ne a.sig_range.1 (Ne.symm ha)
  have had := decimalDigits_pos ha0
  have hae : a.bn.exp = a.exp := rfl
  unfold NormalReal.Above
  rcases @scaleSignificand_spec a.bn a.sig b.exp (sigMaxDigits * 2) a.hasMagnitude b.exp_range.1
    hlt.le hdiff with ⟨hno, hrun⟩ | ⟨hyes, w, hrun, hwe, hwf, hwm⟩
  · refine Or.inl ⟨⟨hlt, ?_⟩, hrun⟩
    rw [hae] at hno
    omega
  · rw [hae] at hyes hwm
    refine Or.inr ⟨fun h => ?_, w, hrun, hwe, ?_, hwm⟩
    · omega
    · have hne : a.sig * 10 ^ (a.exp - b.exp).toNat ≠ 0 := by positivity
      unfold realNegativeP
      rw [hwm.realZeroP_eq, a.realZeroP_eq, hwf]
      simp [hne, ha]

/-- **Real addition.**  For normal reals whose exponents differ by an `int32_t`,
`idio_bignum_real_add` returns the exact sum truncated to 18 significant digits, or
the larger operand when they are too far apart, and raises `exponent overflow`
exactly when the truncated sum is no normal real. -/
theorem realAdd_sumOutcome (a b : NormalReal)
    (hdiff : a.sig ≠ 0 → b.sig ≠ 0 → |a.exp - b.exp| ≤ beMax) :
    SumOutcome a b (realAdd a.bn b.bn) := by
  have hargs : ∀ u : NormalReal, realArgument u.bn = .ok u.bn := fun u => rfl
  have hae : a.bn.exp = a.exp := rfl
  have hbe : b.bn.exp = b.exp := rfl
  simp only [realAdd, NormalReal.integer_eq, Bool.and_self, hargs, bind, Except.bind,
    NormalReal.realZeroP_eq, hae, hbe, Bool.false_eq_true, if_false]
  by_cases ha : a.sig = 0
  · refine ⟨fun hfar => absurd ha hfar.1, fun _ => Or.inl ⟨b, by simp [ha, pure, Except.pure], ?_⟩⟩
    rw [a.toRat_eq_zero_iff.mpr ha, zero_add, b.toRat_truncate]
  by_cases hb : b.sig = 0
  · refine ⟨fun hfar => absurd hb hfar.2.1,
      fun _ => Or.inl ⟨a, by simp [ha, hb, pure, Except.pure], ?_⟩⟩
    rw [b.toRat_eq_zero_iff.mpr hb, add_zero, a.toRat_truncate]
  have hd := abs_le.mp (hdiff ha hb)
  simp only [ha, hb, decide_false, Bool.false_eq_true, if_false]
  rcases lt_trichotomy a.exp b.exp with hlt | heq | hgt
  · -- `b` has the larger exponent and is scaled to that of `a`.
    have hnot : ¬ a.Above b := fun h => absurd h.1 (by omega)
    have hngt : ¬ a.exp > b.exp := by omega
    simp only [hlt, hngt, if_true, if_false]
    rcases NormalReal.scale_spec hb hlt (by omega) with ⟨habove, hrun⟩ |
      ⟨hnabove, w, hrun, hwe, hwneg, hwm⟩
    · refine ⟨fun _ => ?_, fun hfar => absurd ⟨ha, hb, Or.inr habove⟩ hfar⟩
      simp only [hrun]
      exact larger_spec a b
    · refine ⟨fun hfar => absurd hfar.2.2 (by simp [hnot, hnabove]), fun _ => ?_⟩
      simp only [hrun]
      have hsum := scaledAdd_outcome a.hasMagnitude hwm a.exp_range
      rw [hwneg] at hsum
      convert hsum using 1
      rw [a.toRat_eq, b.toRat_eq, mul_zpow_shift hlt.le, hae]
      push_cast
      split <;> split <;> ring
  · have hnot : ¬ a.Above b := fun h => absurd h.1 (by omega)
    have hnot' : ¬ b.Above a := fun h => absurd h.1 (by omega)
    simp only [heq, lt_irrefl, if_false]
    refine ⟨fun hfar => absurd hfar.2.2 (by simp [hnot, hnot']), fun _ => ?_⟩
    have hsum := scaledAdd_outcome a.hasMagnitude b.hasMagnitude a.exp_range
    convert hsum using 1
    rw [a.toRat_eq, b.toRat_eq, hae, ← heq]
    push_cast
    ring
  · have hnot : ¬ b.Above a := fun h => absurd h.1 (by omega)
    have hnlt : ¬ a.exp < b.exp := by omega
    simp only [hgt, hnlt, if_true, if_false]
    rcases NormalReal.scale_spec ha hgt (by omega) with ⟨habove, hrun⟩ |
      ⟨hnabove, w, hrun, hwe, hwneg, hwm⟩
    · refine ⟨fun _ => ?_, fun hfar => absurd ⟨ha, hb, Or.inl habove⟩ hfar⟩
      simp only [hrun]
      exact larger_spec a b
    · refine ⟨fun hfar => absurd hfar.2.2 (by simp [hnot, hnabove]), fun _ => ?_⟩
      simp only [hrun]
      have hsum := scaledAdd_outcome hwm b.hasMagnitude (hwe ▸ b.exp_range)
      rw [hwneg, hwe] at hsum
      convert hsum using 1
      rw [a.toRat_eq, b.toRat_eq, mul_zpow_shift hgt.le]
      push_cast
      split <;> split <;> ring

/-- **Real addition and subtraction.**  Both are `SumOutcome`, subtraction that of
the operand of the opposite sign. -/
theorem real_sum_and_difference (a b : NormalReal)
    (hdiff : a.sig ≠ 0 → b.sig ≠ 0 → |a.exp - b.exp| ≤ beMax) :
    SumOutcome a b (realAdd a.bn b.bn) ∧
      ∃ nb : NormalReal, nb.toRat = - b.toRat ∧ SumOutcome a nb (realSubtract a.bn b.bn) := by
  obtain ⟨nb, hnb, hval, hsig, hexp⟩ := b.realNegate_bn
  refine ⟨realAdd_sumOutcome a b hdiff, nb, hval, ?_⟩
  have hsub : realSubtract a.bn b.bn = realAdd a.bn nb.bn := by
    rw [realSubtract, b.integer_eq, if_neg (by simp), hnb]
  rw [hsub]
  exact realAdd_sumOutcome a nb (by rwa [hsig, hexp])

theorem beMax_range : beMin ≤ beMax ∧ beMax ≤ beMax := by decide

theorem one_range : (0 : Int) ≤ 1 ∧ 1 < segLimit := by decide

/-- The real `m * 10 ^ e`, for tests and examples. -/
def exactReal (e m : Int) (he : beMin ≤ e ∧ e ≤ beMax) (hm : 0 ≤ m ∧ m < segLimit)
    (hc : m % 10 ≠ 0 ∨ (m = 0 ∧ e = 0)) : NormalReal :=
  ⟨false, false, e, m, he, hm, hc⟩

/-- The largest real. -/
def greatestReal : NormalReal :=
  exactReal beMax 999999999999999999 beMax_range (by decide) (by decide)

/-- 1.5 and 0.25. -/
theorem real_sum_and_difference_fractions :
    SumOutcome (exactReal (-1) 15 (by decide) (by decide) (by decide))
        (exactReal (-2) 25 (by decide) (by decide) (by decide))
        (realAdd (exactReal (-1) 15 (by decide) (by decide) (by decide)).bn
          (exactReal (-2) 25 (by decide) (by decide) (by decide)).bn) ∧
      ∃ nb : NormalReal,
        nb.toRat = - (exactReal (-2) 25 (by decide) (by decide) (by decide)).toRat ∧
        SumOutcome (exactReal (-1) 15 (by decide) (by decide) (by decide)) nb
          (realSubtract (exactReal (-1) 15 (by decide) (by decide) (by decide)).bn
            (exactReal (-2) 25 (by decide) (by decide) (by decide)).bn) :=
  real_sum_and_difference _ _ (fun _ _ => by decide)

/-- Twice the largest real raises a condition: addition does not always return. -/
theorem realAdd_not_total :
    ¬ ∀ a b : NormalReal, ∃ r : NormalReal, realAdd a.bn b.bn = .ok r.bn ∧
      (r.toRat = truncate sigMaxDigits (a.toRat + b.toRat) ∨
        ((r = a ∨ r = b) ∧ |a.toRat| ≤ |r.toRat| ∧ |b.toRat| ≤ |r.toRat|)) := by
  intro h
  obtain ⟨r, hr, -⟩ := h greatestReal greatestReal
  have hraise : realAdd greatestReal.bn greatestReal.bn = .error exponentOverflow := by rfl
  rw [hraise] at hr
  cases hr

end Bignum

end Idio
