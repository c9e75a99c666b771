/-
  Bignum/RealProduct.lean --- products and quotients of reals.

  Both work on the significands as integers and combine the exponents beforehand, in
  32 bits, with a guard for each combination of signs.  A product is exact before it
  is normalised; a quotient has at least 18 digits, because the numerator has been
  shifted, which lowers its exponent, until it is that much longer than the
  denominator.

  The guards look at exponents that are not those of the result: normalising makes
  an exponent larger.  `real_products_and_quotients` says which exponents they refuse.
  One combination is not guarded at all: after the shifts the exponent of the
  numerator is zero and that of the denominator the least one, whose negation is no
  `int32_t`.
-/
import Idio.Bignum.Divide
import Idio.Bignum.RealArithmetic

set_option autoImplicit false

namespace Idio

namespace Bignum

open Decimal WhileLoop

/-! ## The source -/

/-- `"exponent underflow"`. -/
def exponentUnderflow : Fault := .bignumConversionError "exponent underflow"

/-- The variables of the loop of `idio_bignum_real_divide`. -/
structure ShiftState where
  raI : Bignum
  expa : Int
  nd : Nat

/-- `nd < dd`. -/
def shortP (dd : Nat) (st : ShiftState) : Bool := st.nd < dd

/-- The body of the loop of `idio_bignum_real_divide`. -/
def shiftStep (st : ShiftState) : Result ShiftState := do
  let raI ← shiftLeft st.raI 0
  if beMin = st.expa then .error exponentUnderflow
  else pure ⟨raI, st.expa - 1, st.nd + 1⟩

/-- The difference of two exponents in `idio_bignum_real_divide`. -/
def subtractExponents (expa expb : Int) : Result Int :=
  if expb > 0 then
    if expb > beMax then .error exponentOverflow
    else if expa < 0 ∧ expb > |beMin - expa| then .error exponentUnderflow
    else .ok (wrap32 (expa - expb))
  else if expb < 0 then
    if expb < beMin then .error exponentUnderflow
    else if expa > 0 ∧ |expb| > beMax - expa then .error exponentOverflow
    else .ok (wrap32 (expa - expb))
  else .ok expa

/-- `idio_bignum_real_divide`; `none` for `#<NaN>`. -/
def realDivide (a b : Bignum) : Result (Option Bignum) := do
  let ra ← realArgument a
  if realZeroP ra then pure (some (real BignumFlags.none 0 (integerIntmaxT 0).sig))
  else do
    let rb ← realArgument b
    let neg := realNegativeP ra != realNegativeP rb
    if zeroP rb then pure none
    else do
      let nd := countDigits ra.sig
      let dd := sigMaxDigits + countDigits rb.sig
      let st ← whileLoop .diverges (shortP dd) shiftStep (dd + 1)
        ⟨copyToInteger ra, ra.exp, nd⟩
      let exp ← subtractExponents st.expa rb.exp
      let (rI, _) ← divide st.raI (copyToInteger rb)
      let r ← normalize (real { BignumFlags.none with realNegative := neg } exp rI.sig)
      pure (some r)

/-! ## Exponents -/

theorem abs_beMin_sub {e : Int} (hlo : beMin ≤ e) : |beMin - e| = e - beMin := by
  rw [abs_of_nonpos (by omega)]
  omega

/-- The sum is formed exactly when it is an `int32_t`. -/
theorem addExponents_eq {ea eb : Int} (ha : beMin ≤ ea ∧ ea ≤ beMax)
    (hb : beMin ≤ eb ∧ eb ≤ beMax) :
    addExponents ea eb =
      if ea + eb < beMin then .error exponentUnderflow
      else if beMax < ea + eb then .error exponentOverflow
      else .ok (ea + eb) := by
  have hmin : beMin = -2147483648 := rfl
  have hmax : beMax = 2147483647 := rfl
  rw [addExponents, abs_beMin_sub ha.1]
  rcases Int.lt_trichotomy eb 0 with h | h | h
  · rw [if_neg (by omega), if_pos h, if_neg (by omega), abs_of_neg h]
    by_cases hunder : ea + eb < beMin
    · rw [if_pos hunder, if_pos ⟨by omega, by omega⟩]
      rfl
    · rw [if_neg hunder, if_neg (by omega), if_neg (by omega)]
  · rw [if_neg (by omega), if_neg (by omega), if_neg (by omega), if_neg (by omega), h, add_zero]
  · rw [if_pos h, if_neg (by omega), if_neg (c := ea + eb < beMin) (by omega)]
    by_cases hover : beMax < ea + eb
    · rw [if_pos hover, if_pos ⟨by omega, by omega⟩]
    · rw [if_neg hover, if_neg (by omega)]

/-- The difference is formed exactly when it is an `int32_t`, but for zero less the
least exponent. -/
theorem subtractExponents_eq {ea eb : Int} (ha : beMin ≤ ea ∧ ea ≤ beMax)
    (hb : beMin ≤ eb ∧ eb ≤ beMax) (hslip : ¬ (ea = 0 ∧ eb = beMin)) :
    subtractExponents ea eb =
      if ea - eb < beMin then .error exponentUnderflow
      else if beMax < ea - eb then .error exponentOverflow
      else .ok (ea - eb) := by
  have hmin : beMin = -2147483648 := rfl
  have hmax : beMax = 2147483647 := rfl
  have hwrap : ¬ ea - eb < beMin → ¬ beMax < ea - eb → wrap32 (ea - eb) = ea - eb :=
    fun h1 h2 => wrap32_of_mem (by omega) (by omega)
  rw [subtractExponents, abs_beMin_sub ha.1]
  rcases Int.lt_trichotomy eb 0 with h | h | h
  · rw [if_neg (by omega), if_pos h, if_neg (by omega), abs_of_neg h,
      if_neg (c := ea - eb < beMin) (by omega)]
    by_cases hover : beMax < ea - eb
    · rw [if_pos hover, if_pos ⟨by omega, by omega⟩]
    · rw [if_neg hover, if_neg (by omega), hwrap (by omega) hover]
  · rw [if_neg (by omega), if_neg (by omega), if_neg (by omega), if_neg (by omega), h, sub_zero]
  · rw [if_pos h, if_neg (by omega)]
    by_cases hunder : ea - eb < beMin
    · rw [if_pos hunder, if_pos ⟨by omega, by omega⟩]
    · rw [if_neg hunder, if_neg (by omega), if_neg (by omega), hwrap hunder (by omega)]

/-! ## Reals -/

/-- A real bignum, in normal form or not. -/
structure RealBignum where
  bn : Bignum
  sig : Int
  hasMagnitude : HasMagnitude bn sig
  real : bn.flags.integer = false
  exp_range : beMin ≤ bn.exp ∧ bn.exp ≤ beMax

namespace RealBignum

/-- The number a real stands for. -/
def toRat (r : RealBignum) : ℚ :=
  ((if realNegativeP r.bn then - r.sig else r.sig : Int) : ℚ) * 10 ^ r.bn.exp

theorem realArgument_eq (r : RealBignum) : realArgument r.bn = .ok r.bn := by
  rw [realArgument, r.real, if_neg Bool.false_ne_true]

theorem sig_nonneg (r : RealBignum) : 0 ≤ r.sig := r.hasMagnitude.nonneg

theorem toRat_eq (r : RealBignum) :
    r.toRat = (if realNegativeP r.bn then -1 else 1) * ((r.sig : ℚ) * 10 ^ r.bn.exp) := by
  rw [toRat]
  split
  · push_cast
    ring
  · rw [one_mul]

end RealBignum

/-- A normal real is a real. -/
def NormalReal.toReal (r : NormalReal) : RealBignum :=
  ⟨r.bn, r.sig, r.hasMagnitude, rfl, r.exp_range⟩

/-! ## Normalising with a sign -/

theorem truncate_sign (n : Nat) (neg : Bool) (q : ℚ) :
    truncate n ((if neg then -1 else 1) * q) = (if neg then -1 else 1) * truncate n q := by
  cases neg
  · simp
  · simp [truncate_neg]

theorem truncatedOrOverflow_congr {p q : ℚ} (h : truncate sigMaxDigits p = truncate sigMaxDigits q)
    (res : Result Bignum) : TruncatedOrOverflow p res ↔ TruncatedOrOverflow q res := by
  rw [TruncatedOrOverflow, TruncatedOrOverflow, h]

/-- The end of a product or quotient. -/
theorem normalize_sign {m e : Int} {sig : Bsa} (hm : HasMagnitude (integer sig) m)
    (he : beMin ≤ e ∧ e ≤ beMax) (neg : Bool) :
    TruncatedOrOverflow ((if neg then -1 else 1) * ((m : ℚ) * 10 ^ e))
      (normalize (real { BignumFlags.none with realNegative := neg } e sig)) := by
  have hm' : HasMagnitude (real { BignumFlags.none with realNegative := neg } e sig) m :=
    ⟨hm.magnitude, hm.toInt_eq⟩
  unfold TruncatedOrOverflow
  rw [truncate_sign]
  rcases normalize_outcome hm' he with ⟨r, hr, hneg, -, hval⟩ | ⟨hr, hnone⟩
  · have hneg' : r.negative = neg := hneg
    have hval' : r.absRat = truncate sigMaxDigits ((m : ℚ) * 10 ^ e) := hval
    refine .inl ⟨r, hr, ?_⟩
    rw [NormalReal.toRat, hneg', hval']
    cases neg <;> simp
  · refine .inr ⟨hr, fun r h => hnone r ?_⟩
    show r.absRat = truncate sigMaxDigits ((m : ℚ) * 10 ^ e)
    have hpos : 0 ≤ truncate sigMaxDigits ((m : ℚ) * 10 ^ e) := by
      have : (0 : ℚ) ≤ m := by exact_mod_cast hm.nonneg
      exact truncate_nonneg _ (by positivity)
    rw [← r.abs_toRat, h]
    cases neg <;> simp [abs_of_nonneg hpos]

/-- There is no normal real for an exponent that is too large. -/
theorem overflow_sign {m e : Int} (hm : 0 < m) (he : beMax < e) (neg : Bool) (res : Result Bignum)
    (hres : res = .error exponentOverflow) :
    TruncatedOrOverflow ((if neg then -1 else 1) * ((m : ℚ) * 10 ^ e)) res := by
  refine .inr ⟨hres, fun r h => NormalReal.absRat_ne hm he r ?_⟩
  have hpos : 0 ≤ truncate sigMaxDigits ((m : ℚ) * 10 ^ e) := by
    have : (0 : ℚ) < m := by exact_mod_cast hm
    exact truncate_nonneg _ (by positivity)
  rw [← r.abs_toRat, h, truncate_sign]
  cases neg <;> simp [abs_of_nonneg hpos]

/-! ## Products -/

/-- What `idio_bignum_real_multiply` does with reals: zero if one of them is, else
`exponent underflow` if the sum of the exponents is too small, else the product
truncated to 18 digits, or `exponent overflow` when no normal real has that value. -/
def ProductOutcome (a b : RealBignum) (res : Result Bignum) : Prop :=
  if a.sig = 0 ∨ b.sig = 0 then ∃ z : RealBignum, res = .ok z.bn ∧ z.sig = 0
  else if a.bn.exp + b.bn.exp < beMin then res = .error exponentUnderflow
  else TruncatedOrOverflow (a.toRat * b.toRat) res

theorem realMultiply_outcome (a b : RealBignum) : ProductOutcome a b (realMultiply a.bn b.bn) := by
  rw [ProductOutcome, realMultiply, a.real, b.real, a.realArgument_eq, b.realArgument_eq]
  simp only [Bool.and_self, Bool.false_eq_true, if_false, ok_bind]
  rw [a.hasMagnitude.realZeroP_eq, b.hasMagnitude.realZeroP_eq]
  by_cases ha : a.sig = 0
  · rw [if_pos (.inl ha), if_pos (decide_eq_true ha)]
    exact ⟨a, rfl, ha⟩
  by_cases hb : b.sig = 0
  · rw [if_pos (.inr hb), if_neg (by simp [ha]), if_pos (decide_eq_true hb)]
    exact ⟨b, rfl, hb⟩
  have hne : ¬ (a.sig = 0 ∨ b.sig = 0) := fun h => h.elim ha hb
  rw [if_neg hne, decide_eq_false ha, decide_eq_false hb, if_neg Bool.false_ne_true,
    if_neg Bool.false_ne_true, addExponents_eq a.exp_range b.exp_range]
  by_cases hunder : a.bn.exp + b.bn.exp < beMin
  · rw [if_pos hunder, if_pos hunder]
    rfl
  rw [if_neg hunder, if_neg hunder]
  have hval : a.toRat * b.toRat =
      (if realNegativeP a.bn != realNegativeP b.bn then -1 else 1) *
        (((a.sig * b.sig : Int) : ℚ) * 10 ^ (a.bn.exp + b.bn.exp)) := by
    rw [a.toRat_eq, b.toRat_eq, zpow_add₀ (by norm_num)]
    push_cast
    cases realNegativeP a.bn <;> cases realNegativeP b.bn <;> simp <;> ring
  have hpos : 0 < a.sig * b.sig := by
    have := a.sig_nonneg
    have := b.sig_nonneg
    positivity
  rw [hval]
  by_cases hover : beMax < a.bn.exp + b.bn.exp
  · rw [if_pos hover]
    exact overflow_sign hpos hover _ _ rfl
  · obtain ⟨rI, hrun, hrI⟩ := multiply_isInt a.hasMagnitude.isInt b.hasMagnitude.isInt
    rw [if_neg hover, ok_bind, hrun, ok_bind]
    have hm : HasMagnitude (integer rI.sig) (a.sig * b.sig) :=
      ⟨(hrI.hasMagnitude hpos.le).magnitude, hrI.toInt_eq⟩
    exact normalize_sign hm ⟨by omega, by omega⟩ _

/-! ## Quotients -/

/-- The loop appends `k` digits, unless the exponent reaches the least one before. -/
theorem shiftLoop_spec {dd k : Nat} {st : ShiftState} {m : Int} (hm : IsInt st.raI m)
    (h0 : 0 ≤ m) (hlo : beMin ≤ st.expa) (hk : dd - st.nd = k) (fuel : Nat) :
    (st.expa - k < beMin →
      whileLoop .diverges (shortP dd) shiftStep (fuel + k) st =
        .error exponentUnderflow) ∧
    (beMin ≤ st.expa - k →
      ∃ st', whileLoop .diverges (shortP dd) shiftStep (fuel + k) st = .ok st' ∧
        st'.expa = st.expa - k ∧ IsInt st'.raI (m * 10 ^ k)) := by
  induction k generalizing st m with
  | zero =>
    have hstop : shortP dd st = false := decide_eq_false (by omega)
    refine ⟨fun h => ?_, fun _ => ⟨st, whileLoop_of_false _ hstop, by simp, by simpa using hm⟩⟩
    simp only [Nat.cast_zero, sub_zero] at h
    omega
  | succ k ih =>
    have hgo : shortP dd st = true := decide_eq_true (by omega)
    obtain ⟨raI, hshift, hraI⟩ := shiftLeft_isInt hm h0 (by decide : (0 : Int) ≤ 0 ∧ (0 : Int) < 10)
    rw [add_zero, mul_comm] at hraI
    rw [← Nat.add_assoc]
    by_cases hmin : beMin = st.expa
    · have hstep : shiftStep st = .error exponentUnderflow := by
        rw [shiftStep, hshift, ok_bind, if_pos hmin]
      refine ⟨fun _ => whileLoop_of_raise _ hgo hstep, fun h => ?_⟩
      push_cast at h
      omega
    · have hstep : shiftStep st = .ok ⟨raI, st.expa - 1, st.nd + 1⟩ := by
        rw [shiftStep, hshift, ok_bind, if_neg hmin]
        rfl
      obtain ⟨hunder, hrun⟩ := @ih ⟨raI, st.expa - 1, st.nd + 1⟩ _ hraI (by omega)
        (by dsimp only; omega) (by dsimp only; omega)
      rw [whileLoop_of_true _ hgo hstep]
      refine ⟨fun h => hunder ?_, fun h => ?_⟩
      · push_cast at h ⊢
        omega
      · obtain ⟨st', hst', hexp, hmag⟩ := hrun (by push_cast at h ⊢; omega)
        refine ⟨st', hst', ?_, ?_⟩
        · rw [hexp]
          push_cast
          ring
        · rwa [pow_succ', ← mul_assoc]

/-- The digits the loop appends to the significand of `a`. -/
def appended (a b : RealBignum) : Nat :=
  sigMaxDigits + decimalDigits b.sig - decimalDigits a.sig

/-- What `idio_bignum_real_divide` does with reals, the denominator not zero: zero if
the numerator is; `exponent underflow` if the exponent of the numerator is too small
for the digits appended, or its difference with that of the denominator is; else the
quotient truncated to 18 digits, or `exponent overflow` when no normal real has that
value.  The difference of zero and the least exponent is left out. -/
def QuotientOutcome (a b : RealBignum) (res : Result (Option Bignum)) : Prop :=
  if a.sig = 0 then ∃ z : RealBignum, res = .ok (some z.bn) ∧ z.sig = 0
  else if a.bn.exp - appended a b < beMin ∨ a.bn.exp - appended a b - b.bn.exp < beMin then
    res = .error exponentUnderflow
  else ¬ (a.bn.exp = appended a b ∧ b.bn.exp = beMin) →
    ∃ res' : Result Bignum, res = res'.map some ∧ TruncatedOrOverflow (a.toRat / b.toRat) res'

/-- The integer quotient has enough digits. -/
theorem sigMaxDigits_le_quotient {x y : Int} (hx : 0 < x) (hy : 0 < y)
    (h : sigMaxDigits + decimalDigits y ≤ decimalDigits x) :
    sigMaxDigits ≤ decimalDigits (x / y) := by
  have hlow : (10 : Int) ^ (sigMaxDigits - 1) * y ≤ x := by
    have hxlow : (10 : Int) ^ (sigMaxDigits - 1 + decimalDigits y) ≤ x := by
      apply (lt_decimalDigits_iff hx.le).mp
      simp only [sigMaxDigits] at *
      omega
    calc (10 : Int) ^ (sigMaxDigits - 1) * y
        ≤ 10 ^ (sigMaxDigits - 1) * 10 ^ decimalDigits y := by
          have := (lt_pow_decimalDigits hy.le).le
          gcongr
      _ ≤ x := by rwa [← pow_add]
  have hq : (10 : Int) ^ (sigMaxDigits - 1) ≤ x / y := (Int.le_ediv_iff_mul_le hy).mpr hlow
  have hlt := (lt_decimalDigits_iff (Int.ediv_nonneg hx.le hy.le)).mpr hq
  simp only [sigMaxDigits] at *
  omega

/-- The value of a quotient, truncated, is that of the integer quotient. -/
theorem truncate_quotient {x y : Int} (hx : 0 < x) (hy : 0 < y)
    (h : sigMaxDigits + decimalDigits y ≤ decimalDigits x) (e : Int) :
    truncate sigMaxDigits ((x : ℚ) / y * 10 ^ e) =
      truncate sigMaxDigits (((x / y : Int) : ℚ) * 10 ^ e) := by
  have hfloor : ⌊(x : ℚ) / y⌋ = x / y := by
    obtain ⟨n, rfl⟩ := Int.eq_ofNat_of_zero_le hy.le
    exact Rat.floor_intCast_div_natCast x n
  have hdigits := sigMaxDigits_le_quotient hx hy h
  have hpos : 0 < x / y := by
    apply lt_of_le_of_ne (Int.ediv_nonneg hx.le hy.le)
    intro hzero
    rw [← hzero] at hdigits
    exact absurd hdigits (by decide)
  rw [truncate_floor (by rwa [hfloor]) (by rwa [hfloor]), hfloor]

theorem realDivide_outcome (a b : RealBignum) (hb : b.sig ≠ 0) :
    QuotientOutcome a b (realDivide a.bn b.bn) := by
  rw [QuotientOutcome, realDivide, a.realArgument_eq, ok_bind, a.hasMagnitude.realZeroP_eq]
  by_cases ha : a.sig = 0
  · rw [if_pos ha, if_pos (decide_eq_true ha)]
    exact ⟨⟨_, 0, hasMagnitude_small rfl (by decide) (by decide), rfl, by decide⟩, rfl, rfl⟩
  have ha0 : 0 < a.sig := lt_of_le_of_ne a.sig_nonneg (Ne.symm ha)
  have hb0 : 0 < b.sig := lt_of_le_of_ne b.sig_nonneg (Ne.symm hb)
  have hda := decimalDigits_pos ha0
  have hdb := decimalDigits_pos hb0
  rw [if_neg ha, decide_eq_false ha, if_neg Bool.false_ne_true, b.realArgument_eq, ok_bind,
    b.hasMagnitude.zeroP_eq, decide_eq_false hb, a.hasMagnitude.countDigits_eq,
    b.hasMagnitude.countDigits_eq, max_eq_right hda, max_eq_right hdb]
  dsimp only
  rw [if_neg Bool.false_ne_true]
  obtain ⟨fuel, hfuel⟩ :
      ∃ fuel, sigMaxDigits + decimalDigits b.sig + 1 = fuel + appended a b :=
    ⟨sigMaxDigits + decimalDigits b.sig + 1 - appended a b, by rw [appended]; omega⟩
  obtain ⟨hunder, hrun⟩ := @shiftLoop_spec _ (appended a b)
    ⟨copyToInteger a.bn, a.bn.exp, decimalDigits a.sig⟩ _ a.hasMagnitude.isInt a.sig_nonneg a.exp_range.1 (show _ = appended a b from rfl) fuel
  dsimp only at hunder hrun
  rw [hfuel]
  by_cases hloop : a.bn.exp - appended a b < beMin
  · rw [if_pos (.inl hloop), hunder hloop]
    rfl
  obtain ⟨st, hst, hexp, hraI⟩ := hrun (not_lt.mp hloop)
  rw [hst, ok_bind, hexp]
  have hexpRange : beMin ≤ a.bn.exp - appended a b ∧ a.bn.exp - appended a b ≤ beMax := by
    have := a.exp_range
    omega
  by_cases hslip : a.bn.exp - appended a b = 0 ∧ b.bn.exp = beMin
  · have hnunder : ¬ (a.bn.exp - appended a b < beMin ∨ a.bn.exp - appended a b - b.bn.exp < beMin) := by
      rw [hslip.1, hslip.2]
      decide
    rw [if_neg hnunder]
    exact fun h => absurd ⟨by omega, hslip.2⟩ h
  rw [subtractExponents_eq hexpRange b.exp_range hslip]
  by_cases hunder' : a.bn.exp - appended a b - b.bn.exp < beMin
  · rw [if_pos (.inr hunder'), if_pos hunder']
    rfl
  rw [if_neg (fun h => h.elim hloop hunder'), if_neg hunder']
  intro _
  -- the numerator with its digits appended, and the integer quotient
  have hx : 0 < a.sig * 10 ^ appended a b := by positivity
  have hdigits : sigMaxDigits + decimalDigits b.sig ≤ decimalDigits (a.sig * 10 ^ appended a b) := by
    rw [decimalDigits_mul_pow ha0, appended]
    omega
  have hquot : 0 < a.sig * 10 ^ appended a b / b.sig := by
    apply lt_of_le_of_ne (Int.ediv_nonneg hx.le hb0.le)
    intro hzero
    have := sigMaxDigits_le_quotient hx hb0 hdigits
    rw [← hzero] at this
    exact absurd this (by decide)
  have hval : truncate sigMaxDigits (a.toRat / b.toRat) = truncate sigMaxDigits
      ((if realNegativeP a.bn != realNegativeP b.bn then -1 else 1) *
        (((a.sig * 10 ^ appended a b / b.sig : Int) : ℚ) *
          10 ^ (a.bn.exp - appended a b - b.bn.exp))) := by
    have hbq : (b.sig : ℚ) ≠ 0 := by exact_mod_cast hb
    have hquotient : a.toRat / b.toRat =
        (if realNegativeP a.bn != realNegativeP b.bn then -1 else 1) *
          (((a.sig * 10 ^ appended a b : Int) : ℚ) / b.sig *
            10 ^ (a.bn.exp - appended a b - b.bn.exp)) := by
      rw [a.toRat_eq, b.toRat_eq, zpow_sub₀ (by norm_num), zpow_sub₀ (by norm_num), zpow_natCast]
      push_cast
      cases realNegativeP a.bn <;> cases realNegativeP b.bn <;> simp <;> field_simp
    rw [hquotient, truncate_sign, truncate_sign, truncate_quotient hx hb0 hdigits]
  by_cases hover : beMax < a.bn.exp - appended a b - b.bn.exp
  · rw [if_pos hover]
    refine ⟨.error exponentOverflow, rfl, ?_⟩
    rw [truncatedOrOverflow_congr hval]
    exact overflow_sign hquot hover _ _ rfl
  · obtain ⟨q, r, hdiv, hq, -⟩ := divide_isInt hraI b.hasMagnitude.isInt hb
    rw [Int.tdiv_eq_ediv_of_nonneg hx.le] at hq
    have hqm : HasMagnitude (integer q.sig) (a.sig * 10 ^ appended a b / b.sig) :=
      ⟨(hq.hasMagnitude hquot.le).magnitude, hq.toInt_eq⟩
    rw [if_neg hover, ok_bind, hdiv, ok_bind]
    refine ⟨_, rfl, ?_⟩
    rw [truncatedOrOverflow_congr hval]
    exact normalize_sign hqm ⟨by omega, by omega⟩ _

/-! ## Exponents at their limits -/

/-- **Real multiplication and division.**  Either the result is the truncated product or
quotient, exponent and sign included, or a condition is raised. -/
theorem real_products_and_quotients (a b : RealBignum) :
    ProductOutcome a b (realMultiply a.bn b.bn) ∧
      (b.sig ≠ 0 → QuotientOutcome a b (realDivide a.bn b.bn)) :=
  ⟨realMultiply_outcome a b, realDivide_outcome a b⟩

/-- The truncated number if it has an `int32_t` exponent, else a condition. -/
def ExactOrRaises (q : ℚ) (res : Result Bignum) : Prop :=
  (∃ r : NormalReal, res = .ok r.bn ∧ r.toRat = truncate sigMaxDigits q) ∨
    ((res = .error exponentOverflow ∨ res = .error exponentUnderflow) ∧
      ∀ r : NormalReal, r.toRat ≠ truncate sigMaxDigits q)

/-- 1.5 times and over 0.25. -/
theorem real_products_and_quotients_fractions :
    (let a := (exactReal (-1) 15 (by decide) (by decide) (by decide)).toReal
     let b := (exactReal (-2) 25 (by decide) (by decide) (by decide)).toReal
     ProductOutcome a b (realMultiply a.bn b.bn) ∧ QuotientOutcome a b (realDivide a.bn b.bn)) := by
  obtain ⟨hproduct, hquotient⟩ := real_products_and_quotients
    (exactReal (-1) 15 (by decide) (by decide) (by decide)).toReal
    (exactReal (-2) 25 (by decide) (by decide) (by decide)).toReal
  exact ⟨hproduct, hquotient (by decide)⟩

theorem exactReal_toRat {e m : Int} (he : beMin ≤ e ∧ e ≤ beMax) (hm : 0 ≤ m ∧ m < segLimit)
    (hc : m % 10 ≠ 0 ∨ (m = 0 ∧ e = 0)) : (exactReal e m he hm hc).toRat = m * 10 ^ e := by
  rw [NormalReal.toRat, NormalReal.absRat, exactReal]
  rfl

/-- A condition is wrong where there is a normal real. -/
theorem not_exactOrRaises {q : ℚ} {r : NormalReal} (h : q = r.toRat) {e : Fault} :
    ¬ ExactOrRaises q (.error e) := by
  rintro (⟨s, hs, -⟩ | ⟨-, hnone⟩)
  · cases hs
  · apply hnone r
    rw [h, r.toRat_truncate]

/-- `2e-2147483648` times `0.5`: the sum of the exponents is too small, but the product is
the least real there is. -/
theorem realMultiply_underflow :
    realMultiply (exactReal beMin 2 (by decide) (by decide) (by decide)).bn
        (exactReal (-1) 5 (by decide) (by decide) (by decide)).bn = .error exponentUnderflow := by
  rfl

/-- `1e-2147483648` over itself: there is no room for the digits that are appended, but
the quotient is one. -/
theorem realDivide_underflow :
    realDivide (exactReal beMin 1 (by decide) (by decide) (by decide)).bn
        (exactReal beMin 1 (by decide) (by decide) (by decide)).bn = .error exponentUnderflow := by
  rfl

/-- `1e18` over `1e-2147483648`: the difference of the exponents, zero and the least one,
wraps round. -/
theorem realDivide_wraps :
    realDivide (exactReal 18 1 (by decide) (by decide) (by decide)).bn
        (exactReal beMin 1 (by decide) (by decide) (by decide)).bn =
      .ok (some (exactReal (-2147483630) 1 (by decide) (by decide) (by decide)).bn) := by
  rfl

theorem exact_quotient {e : Int} (he : beMin ≤ e ∧ e ≤ beMax) (hm : (0 : Int) ≤ 1 ∧ 1 < segLimit)
    (hc : (1 : Int) % 10 ≠ 0 ∨ ((1 : Int) = 0 ∧ e = 0)) {f : Int} (hf : beMin ≤ f ∧ f ≤ beMax)
    (hc' : (1 : Int) % 10 ≠ 0 ∨ ((1 : Int) = 0 ∧ f = 0)) :
    (exactReal e 1 he hm hc).toRat / (exactReal f 1 hf hm hc').toRat =
      ((1 : Int) : ℚ) * 10 ^ (e - f) := by
  rw [exactReal_toRat, exactReal_toRat, zpow_sub₀ (by norm_num), Int.cast_one, one_mul, one_mul,
    one_mul]

/-- None of the three is what it should be. -/
theorem exponents_at_their_limits :
    ¬ ExactOrRaises
        ((exactReal beMin 2 (by decide) (by decide) (by decide)).toRat *
          (exactReal (-1) 5 (by decide) (by decide) (by decide)).toRat)
        (realMultiply (exactReal beMin 2 (by decide) (by decide) (by decide)).bn
          (exactReal (-1) 5 (by decide) (by decide) (by decide)).bn) ∧
    ¬ (∃ res, ExactOrRaises
        ((exactReal beMin 1 (by decide) (by decide) (by decide)).toRat /
          (exactReal beMin 1 (by decide) (by decide) (by decide)).toRat) res ∧
        realDivide (exactReal beMin 1 (by decide) (by decide) (by decide)).bn
          (exactReal beMin 1 (by decide) (by decide) (by decide)).bn = res.map some) ∧
    ¬ (∃ res, ExactOrRaises
        ((exactReal 18 1 (by decide) (by decide) (by decide)).toRat /
          (exactReal beMin 1 (by decide) (by decide) (by decide)).toRat) res ∧
        realDivide (exactReal 18 1 (by decide) (by decide) (by decide)).bn
          (exactReal beMin 1 (by decide) (by decide) (by decide)).bn = res.map some) := by
  refine ⟨?_, ?_, ?_⟩
  · rw [realMultiply_underflow]
    refine not_exactOrRaises (r := exactReal beMin 1 (by decide) (by decide) (by decide)) ?_
    rw [exactReal_toRat, exactReal_toRat, exactReal_toRat]
    generalize (10 : ℚ) ^ beMin = x
    norm_num
    ring
  · rintro ⟨res, hexact, hres⟩
    rw [realDivide_underflow] at hres
    cases res with
    | ok r => cases hres
    | error e =>
      refine not_exactOrRaises (r := exactReal 0 1 (by decide) (by decide) (by decide)) ?_ hexact
      rw [exact_quotient, exactReal_toRat, sub_self]
  · rintro ⟨res, hexact, hres⟩
    rw [realDivide_wraps] at hres
    cases res with
    | error e => cases hres
    | ok r =>
      rw [exact_quotient] at hexact
      rcases hexact with ⟨s, -, hs⟩ | ⟨hs | hs, -⟩
      · apply NormalReal.absRat_ne (m := 1) (e := 18 - beMin) (by decide) (by decide) s
        rw [← s.abs_toRat, hs, ← truncate_abs, abs_of_pos]
        exact mul_pos (by norm_num) (zpow_pos (by norm_num) _)
      · cases hs
      · cases hs

end Bignum

end Idio
