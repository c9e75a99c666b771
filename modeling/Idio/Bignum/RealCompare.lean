/-
  Bignum/RealCompare.lean --- conversion of integers to reals and comparison of
  reals.

  An integer compared with a real is converted first, and `toReal` keeps 18 digits
  of it only.  So the comparison is that of the numbers as long as the integer is
  the value of some normal real (`toReal_exact`); between two normal reals it is
  exact without a condition (`realLtP_normal`, `realEqualP_normal`).

  `realLtP` looks at the signs, then at the place of the first digit, and only
  between numbers whose first digits stand in one place brings the significands to
  one exponent.  The exponents then differ by less than 18, so this last scaling
  never fails and its `int32_t` difference never wraps.
-/
import Idio.Bignum.Normalize

set_option autoImplicit false

namespace Idio

namespace Bignum

open Decimal Positional WhileLoop

/-! ## Reals -/

/-- `idio_bignum_real_zero_p`. -/
def realZeroP (a : Bignum) : Bool := if a.sig.length > 1 then false else a.sig.headD 0 == 0

/-- `IDIO_BIGNUM_REAL_NEGATIVE_P`: the sign of a zero does not count. -/
def realNegativeP (bn : Bignum) : Bool := bn.flags.realNegative && !realZeroP bn

/-- `IDIO_BIGNUM_REAL_POSITIVE_P`. -/
def realPositiveP (bn : Bignum) : Bool := !realNegativeP bn

/-- `idio_bignum_real_negate`. -/
def realNegate (bn : Bignum) : Bignum :=
  real { bn.flags with realNegative := !realNegativeP bn } bn.exp bn.sig

/-- `idio_bignum_real_abs`. -/
def realAbs (bn : Bignum) : Bignum :=
  if bn.flags.integer then abs bn
  else if realNegativeP bn then realNegate bn
  else bn

/-- `IDIO_BIGNUM_SIG_SEGMENTS`. -/
def sigSegments : Nat := 1

/-- The body of the loop of `idio_bignum_to_real`. -/
def toRealStep (st : NormalizeState) : Result NormalizeState :=
  .ok ⟨(shiftRight st.bnS).1, wrap32 (st.exp + 1), st.digits - 1⟩

/-- The part of `idio_bignum_to_real` that drops digits, on the absolute value. -/
def toRealDigits (bnc : Bignum) : Result NormalizeState :=
  if bnc.sig.length > sigSegments then
    whileLoop .diverges (fun st => decide (st.digits > sigMaxDigits)) toRealStep
      (countDigits bnc.sig + 1) ⟨bnc, 0, countDigits bnc.sig⟩
  else .ok ⟨bnc, 0, countDigits bnc.sig⟩

/-- `idio_bignum_to_real`. -/
def toReal (bn : Bignum) : Result Bignum := do
  let st ← toRealDigits (abs bn)
  normalize (real { BignumFlags.none with realNegative := negativeP bn } st.exp st.bnS.sig)

/-- `if (IDIO_BIGNUM_INTEGER_P (a)) ra = idio_bignum_to_real (a);` -/
def realArgument (a : Bignum) : Result Bignum := if a.flags.integer then toReal a else .ok a

/-! ## Comparison -/

/-- `idio_bignum_real_equal_p`. -/
def realEqualP (a b : Bignum) : Result Bool :=
  if a.flags.integer && b.flags.integer then .ok (equalP a b)
  else do
    let ra ← realArgument a
    let rb ← realArgument b
    if ra.flags.realInexact != rb.flags.realInexact then pure false
    else if ra.exp ≠ rb.exp then pure false
    else if realZeroP ra && realZeroP rb then pure true
    else if realNegativeP ra != realNegativeP rb then pure false
    else pure (ra.sig == rb.sig)

/-- The end of `idio_bignum_real_lt_p`: the significands at one exponent. -/
def scaledLt (na : Bool) (ra1 rb1 : Bignum) : Bool :=
  if ra1.sig.length < rb1.sig.length then true
  else if ra1.sig.length > rb1.sig.length then false
  else signedLt na (msdCompare ra1.sig.reverse rb1.sig.reverse)

/-- The part of `idio_bignum_real_lt_p` after the tests of signs and zeros. -/
def magnitudeLt (na : Bool) (ra0 rb0 : Bignum) : Result Bool :=
  let dpa := countDigits ra0.sig + ra0.exp
  let dpb := countDigits rb0.sig + rb0.exp
  if dpa < dpb then .ok (signedLt na .lt)
  else if dpa > dpb then .ok (signedLt na .gt)
  else do
    let rb1 ←
      if ra0.exp < rb0.exp then scaleSignificand rb0 ra0.exp sigMaxDigits else .ok (some rb0)
    match rb1 with
    | none => .ok (signedLt na .lt)
    | some rb1 => do
      let ra1 ←
        if ra0.exp > rb1.exp then scaleSignificand ra0 rb1.exp sigMaxDigits else .ok (some ra0)
      match ra1 with
      | none => .ok (signedLt na .lt)
      | some ra1 => .ok (scaledLt na ra1 rb1)

/-- `idio_bignum_real_lt_p`. -/
def realLtP (a b : Bignum) : Result Bool :=
  if a.flags.integer && b.flags.integer then .ok (ltP a b)
  else do
    let ra0 ← realArgument a
    let rb0 ← realArgument b
    let na := realNegativeP ra0
    let nb := realNegativeP rb0
    if na && !nb then pure true
    else if nb && !na then pure false
    else if realPositiveP ra0 && realZeroP rb0 then pure false
    else if realZeroP ra0 && realPositiveP rb0 then pure true
    else magnitudeLt na ra0 rb0

/-! ## Predicates on normal reals -/

@[simp] theorem NormalReal.integer_eq (r : NormalReal) : r.bn.flags.integer = false := rfl

@[simp] theorem NormalReal.realZeroP_eq (r : NormalReal) :
    realZeroP r.bn = decide (r.sig = 0) := by
  rw [Bool.eq_iff_iff]
  simp [realZeroP, NormalReal.bn]

@[simp] theorem NormalReal.realNegativeP_eq (r : NormalReal) :
    realNegativeP r.bn = decide (r.toRat < 0) := by
  have hnn := r.absRat_nonneg
  have hz := r.absRat_eq_zero_iff
  rw [realNegativeP, r.realZeroP_eq, Bool.eq_iff_iff]
  simp only [Bool.and_eq_true, Bool.not_eq_true', decide_eq_false_iff_not, decide_eq_true_iff]
  unfold NormalReal.toRat
  cases hneg : r.negative with
  | false => simp [NormalReal.bn, hneg, hnn]
  | true =>
    simp only [NormalReal.bn, hneg, true_and, if_true, neg_lt_zero]
    rw [lt_iff_le_and_ne, ← hz]
    exact ⟨fun h => ⟨hnn, fun h' => h h'.symm⟩, fun h h' => h.2 h'.symm⟩

/-! ## Comparison of normal reals -/

theorem scaledLt_eq {ra1 rb1 : Bignum} {x y : Int} (ha : HasMagnitude ra1 x)
    (hb : HasMagnitude rb1 y) (hx : x < segLimit) (hy : y < segLimit) (na : Bool) :
    scaledLt na ra1 rb1 = signedLt na (compare x y) := by
  have hcompare : msdCompare [x] [y] = compare x y := by
    have hdx : Digits segLimit [x] := digits_cons.mpr ⟨⟨ha.nonneg, hx⟩, digits_nil _⟩
    have hdy : Digits segLimit [y] := digits_cons.mpr ⟨⟨hb.nonneg, hy⟩, digits_nil _⟩
    simpa using msdCompare_eq hdx hdy rfl
  simp [scaledLt, ha.sig_eq hx, hb.sig_eq hy, hcompare]

/-- Between normal reals other than zero, the rest of `idio_bignum_real_lt_p`
compares the absolute values. -/
theorem magnitudeLt_eq {r s : NormalReal} (hr : r.sig ≠ 0) (hs : s.sig ≠ 0) (na : Bool) :
    magnitudeLt na r.bn s.bn = .ok (signedLt na (compare r.absRat s.absRat)) := by
  have hr0 : 0 < r.sig := lt_of_le_of_ne r.sig_range.1 (Ne.symm hr)
  have hs0 : 0 < s.sig := lt_of_le_of_ne s.sig_range.1 (Ne.symm hs)
  have hrd := decimalDigits_pos hr0
  have hsd := decimalDigits_pos hs0
  have hra : countDigits r.bn.sig = decimalDigits r.sig := by
    rw [r.hasMagnitude.countDigits_eq]
    omega
  have hsa : countDigits s.bn.sig = decimalDigits s.sig := by
    rw [s.hasMagnitude.countDigits_eq]
    omega
  have hre : r.bn.exp = r.exp := rfl
  have hse : s.bn.exp = s.exp := rfl
  have hmax : (sigMaxDigits : Int) = 18 := rfl
  have hbe : beMax = 2147483647 := rfl
  -- A number scaled to the place of the other still fits one segment.
  have scaled {u v : NormalReal} (hu : 0 < u.sig) (hlt : v.exp < u.exp)
      (heq : decimalDigits u.sig + u.exp = decimalDigits v.sig + v.exp) :
      ∃ w, scaleSignificand u.bn v.exp sigMaxDigits = .ok (some w) ∧ w.exp = v.exp ∧
        HasMagnitude w (u.sig * 10 ^ (u.exp - v.exp).toNat) ∧
        u.sig * 10 ^ (u.exp - v.exp).toNat < segLimit := by
    have hu' := decimalDigits_pos hu
    have hvd := v.digits_le
    have hlimit : u.sig * 10 ^ (u.exp - v.exp).toNat < segLimit := by
      rw [segLimit_eq, ← decimalDigits_le_iff (by positivity), decimalDigits_mul_pow hu]
      simp only [sigMaxDigits, dpw] at hvd ⊢
      omega
    have huexp : u.bn.exp = u.exp := rfl
    simp only [sigMaxDigits] at hvd
    rcases @scaleSignificand_spec u.bn u.sig v.exp sigMaxDigits u.hasMagnitude v.exp_range.1
      hlt.le (by omega) with ⟨hno, -⟩ | ⟨-, w, hw, hwe, -, hwm⟩
    · omega
    · exact ⟨w, hw, hwe, hwm, hlimit⟩
  unfold magnitudeLt
  simp only [hra, hsa, hre, hse]
  rcases lt_trichotomy (decimalDigits r.sig + r.exp) (decimalDigits s.sig + s.exp) with
    hlt | heq | hgt
  · have : r.absRat < s.absRat := mul_zpow_lt_of_digits_lt hr0.le hs0 hlt
    rw [if_pos hlt, compare_lt_iff_lt.mpr this]
  · rw [if_neg (by omega), if_neg (by omega)]
    rcases lt_trichotomy r.exp s.exp with hexp | hexp | hexp
    · obtain ⟨w, hw, hwe, hwm, hlimit⟩ := scaled hs0 hexp heq.symm
      have hcmp : compare r.absRat s.absRat =
          compare r.sig (s.sig * 10 ^ (s.exp - r.exp).toNat) := by
        rw [NormalReal.absRat, NormalReal.absRat, mul_zpow_shift hexp.le, compare_mul_zpow]
      rw [if_pos hexp, hw, hcmp]
      simp [hwe, bind, Except.bind,
        scaledLt_eq r.hasMagnitude hwm r.sig_range.2 hlimit]
    · have hcmp : compare r.absRat s.absRat = compare r.sig s.sig := by
        rw [NormalReal.absRat, NormalReal.absRat, hexp, compare_mul_zpow]
      rw [if_neg (by omega), hcmp]
      simp [hse, hexp, bind, Except.bind,
        scaledLt_eq r.hasMagnitude s.hasMagnitude r.sig_range.2 s.sig_range.2]
    · obtain ⟨w, hw, -, hwm, hlimit⟩ := scaled hr0 hexp heq
      have hcmp : compare r.absRat s.absRat =
          compare (r.sig * 10 ^ (r.exp - s.exp).toNat) s.sig := by
        rw [NormalReal.absRat, NormalReal.absRat, mul_zpow_shift hexp.le, compare_mul_zpow]
      rw [if_neg (by omega), hcmp]
      simp [hse, hexp, hw, bind, Except.bind,
        scaledLt_eq hwm s.hasMagnitude hlimit s.sig_range.2]
  · have : s.absRat < r.absRat := mul_zpow_lt_of_digits_lt hs0.le hr0 hgt
    rw [if_neg (by omega), if_pos hgt, compare_gt_iff_gt.mpr this]

theorem NormalReal.toRat_nonneg_or (r : NormalReal) :
    (r.negative = true ∧ r.sig ≠ 0 ∧ r.toRat < 0 ∧ r.toRat = - r.absRat) ∨
      (0 ≤ r.toRat ∧ r.toRat = r.absRat) := by
  have hnn := r.absRat_nonneg
  have hz := r.absRat_eq_zero_iff
  by_cases h0 : r.sig = 0
  · have ha := hz.mpr h0
    refine Or.inr ?_
    unfold NormalReal.toRat
    split <;> simp [ha]
  · have hpos : 0 < r.absRat := lt_of_le_of_ne hnn (fun h => h0 (hz.mp h.symm))
    unfold NormalReal.toRat
    cases hneg : r.negative with
    | true => exact Or.inl ⟨rfl, h0, by simpa using hpos, by simp⟩
    | false => exact Or.inr ⟨by simpa using hnn, by simp⟩

theorem NormalReal.toRat_eq (r : NormalReal) :
    r.toRat = ((if realNegativeP r.bn then - r.sig else r.sig : Int) : ℚ) * 10 ^ r.exp := by
  rw [r.realNegativeP_eq]
  rcases r.toRat_nonneg_or with ⟨-, -, hneg, hr⟩ | ⟨hpos, hr⟩
  · rw [decide_eq_true hneg, hr, if_pos rfl, NormalReal.absRat]
    push_cast
    ring
  · rw [decide_eq_false (not_lt.mpr hpos), hr, if_neg (by simp), NormalReal.absRat]

theorem NormalReal.abs_toRat (r : NormalReal) : |r.toRat| = r.absRat := by
  rcases r.toRat_nonneg_or with ⟨-, -, hneg, hr⟩ | ⟨hpos, hr⟩
  · rw [abs_of_neg hneg, hr, neg_neg]
  · rw [abs_of_nonneg hpos, hr]

/-- A number has one normal form, the sign of a zero not being counted. -/
theorem NormalReal.toRat_eq_iff (r s : NormalReal) :
    r.toRat = s.toRat ↔
      realNegativeP r.bn = realNegativeP s.bn ∧ r.exp = s.exp ∧ r.sig = s.sig := by
  constructor
  · intro h
    have habs : r.absRat = s.absRat := by rw [← r.abs_toRat, ← s.abs_toRat, h]
    obtain ⟨hsig, hexp⟩ := NormalReal.absRat_inj habs
    exact ⟨by rw [r.realNegativeP_eq, s.realNegativeP_eq, h], hexp, hsig⟩
  · rintro ⟨hneg, hexp, hsig⟩
    rw [r.toRat_eq, s.toRat_eq, hneg, hexp, hsig]

/-- **`idio_bignum_real_lt_p` is the order of the numbers**, between reals in normal
form. -/
theorem realLtP_normal (r s : NormalReal) :
    realLtP r.bn s.bn = .ok (decide (r.toRat < s.toRat)) := by
  have hargs : ∀ u : NormalReal, realArgument u.bn = .ok u.bn := fun u => rfl
  simp only [realLtP, NormalReal.integer_eq, Bool.and_self, hargs, bind, Except.bind,
    NormalReal.realNegativeP_eq, NormalReal.realZeroP_eq, realPositiveP]
  have hrz := r.toRat_eq_zero_iff
  have hsz := s.toRat_eq_zero_iff
  rcases r.toRat_nonneg_or with ⟨-, hr0, hr, hra⟩ | ⟨hr, hra⟩ <;>
    rcases s.toRat_nonneg_or with ⟨-, hs0, hs, hsa⟩ | ⟨hs, hsa⟩
  · -- Both negative: the magnitudes decide, the other way round.
    simp only [hr, hs, decide_true, hr0, hs0, decide_false]
    simp [magnitudeLt_eq hr0 hs0, signedLt_compare, hra, hsa]
  · have hlt : r.toRat < s.toRat := lt_of_lt_of_le hr hs
    simp [hr, not_lt.mpr hs, hlt, pure, Except.pure]
  · have hle : ¬ r.toRat < s.toRat := not_lt.mpr (le_trans hs.le hr)
    simp [hs, not_lt.mpr hr, hle, pure, Except.pure]
  · by_cases hs0 : s.sig = 0
    · have hle : ¬ r.toRat < s.toRat := by
        rw [hsz.mpr hs0]
        exact not_lt.mpr hr
      simp [not_lt.mpr hr, not_lt.mpr hs, hs0, hle, pure, Except.pure]
    · have hspos : 0 < s.toRat := lt_of_le_of_ne hs (fun h => hs0 (hsz.mp h.symm))
      by_cases hr0 : r.sig = 0
      · have hlt : r.toRat < s.toRat := by
          rw [hrz.mpr hr0]
          exact hspos
        simp [not_lt.mpr hr, not_lt.mpr hs, hs0, hr0, hlt, pure, Except.pure]
      · simp only [not_lt.mpr hr, not_lt.mpr hs, hs0, hr0, decide_false]
        simp [magnitudeLt_eq hr0 hs0, signedLt_compare, hra, hsa]

/-- **`idio_bignum_real_equal_p` is equality of the numbers**, between reals in
normal form of one exactness. -/
theorem realEqualP_normal {r s : NormalReal} (hinexact : r.inexact = s.inexact) :
    realEqualP r.bn s.bn = .ok (decide (r.toRat = s.toRat)) := by
  have hargs : ∀ u : NormalReal, realArgument u.bn = .ok u.bn := fun u => rfl
  have hflag : (r.bn.flags.realInexact != s.bn.flags.realInexact) = false := by
    simp [NormalReal.bn, hinexact]
  have hre : r.bn.exp = r.exp := rfl
  have hse : s.bn.exp = s.exp := rfl
  have hsig : (r.bn.sig == s.bn.sig) = decide (r.sig = s.sig) := by
    rw [Bool.eq_iff_iff]
    simp [NormalReal.bn]
  simp only [realEqualP, NormalReal.integer_eq, Bool.and_self, hargs, bind, Except.bind, hflag,
    NormalReal.realZeroP_eq, hre, hse, hsig, r.toRat_eq_iff s]
  by_cases hexp : r.exp = s.exp
  · by_cases hzero : r.sig = 0 ∧ s.sig = 0
    · have hneg : ∀ {u : NormalReal}, u.sig = 0 → realNegativeP u.bn = false := by
        intro u hu
        rw [u.realNegativeP_eq, u.toRat_eq_zero_iff.mpr hu]
        exact decide_eq_false (lt_irrefl 0)
      simp [hexp, hzero.1, hzero.2, hneg hzero.1, hneg hzero.2, pure, Except.pure]
    · have hz : (decide (r.sig = 0) && decide (s.sig = 0)) = false := by
        simpa using hzero
      generalize realNegativeP r.bn = nr
      generalize realNegativeP s.bn = ns
      cases nr <;> cases ns <;> simp [hexp, hz, pure, Except.pure]
  · simp [hexp, pure, Except.pure]

/-! ## Integers as reals -/

/-- The loop of `idio_bignum_to_real` drops the digits beyond `sigMaxDigits`. -/
theorem toRealLoop_spec {bnc : Bignum} {m : Int} (h : HasMagnitude bnc m) (hm : 0 < m)
    (hroom : (decimalDigits m - sigMaxDigits : Nat) ≤ beMax) :
    ∃ st, whileLoop .diverges (fun st => decide (st.digits > sigMaxDigits)) toRealStep
        (countDigits bnc.sig + 1) ⟨bnc, 0, countDigits bnc.sig⟩ = .ok st ∧
      HasMagnitude st.bnS (m / 10 ^ (decimalDigits m - sigMaxDigits)) ∧
      st.exp = (decimalDigits m - sigMaxDigits : Nat) := by
  have hpos := decimalDigits_pos hm
  have hcount : countDigits bnc.sig = decimalDigits m := by
    rw [h.countDigits_eq]
    omega
  generalize hk : decimalDigits m - sigMaxDigits = k at hroom ⊢
  rw [hcount]
  -- `j` digits have been dropped so far.
  let Inv : NormalizeState → Prop := fun st =>
    ∃ j : Nat, j ≤ k ∧ HasMagnitude st.bnS (m / 10 ^ j) ∧ st.exp = j ∧
      st.digits + j = decimalDigits m
  have step : ∀ st, Inv st → decide (st.digits > sigMaxDigits) = true →
      ∃ st', toRealStep st = .ok st' ∧ Inv st' ∧ st'.digits < st.digits := by
    rintro st ⟨j, hj, hmag, he, hd⟩ hc
    have hgt : st.digits > sigMaxDigits := by simpa using hc
    refine ⟨_, rfl, ⟨j + 1, by omega, ?_, ?_, ?_⟩, ?_⟩
    · have := hmag.shiftRight.1
      rwa [Int.ediv_ediv_of_nonneg (by positivity), ← pow_succ] at this
    · have hwrap := @wrap32_of_mem ((j : Int) + 1) (by simp only [beMin]; omega) (by omega)
      simp only [he, hwrap]
      push_cast
      rfl
    · show st.digits - 1 + (j + 1) = decimalDigits m
      omega
    · show st.digits - 1 < st.digits
      omega
  have hinit : Inv ⟨bnc, 0, decimalDigits m⟩ := ⟨0, by omega, by simpa using h, rfl, rfl⟩
  obtain ⟨st, hrun, ⟨j, hj, hmag, he, hd⟩, hstop⟩ :=
    @whileLoop_total _ _ Fault.diverges (fun st => decide (st.digits > sigMaxDigits)) toRealStep
      Inv (fun st => st.digits) step (decimalDigits m + 1) ⟨bnc, 0, decimalDigits m⟩ hinit
      (Nat.lt_succ_self _)
  have hle : st.digits ≤ sigMaxDigits := by simpa using hstop
  have hjk : j = k := by omega
  subst hjk
  exact ⟨st, hrun, hmag, he⟩

/-- What `idio_bignum_to_real` hands to `idio_bignum_normalize`. -/
theorem toReal_eq {bn : Bignum} {n : Int} (h : IsInt bn n)
    (hroom : (decimalDigits |n| - sigMaxDigits : Nat) ≤ beMax) :
    ∃ st : Bignum, toReal bn = normalize st ∧
      HasMagnitude st (|n| / 10 ^ (decimalDigits |n| - sigMaxDigits)) ∧
      st.exp = (decimalDigits |n| - sigMaxDigits : Nat) ∧
      st.flags = ⟨false, true, decide (n < 0), false⟩ := by
  have hm : HasMagnitude (abs bn) |n| := h.abs.hasMagnitude (abs_nonneg n)
  have hflags : ∀ (e : Int) (s : Bsa),
      (real { BignumFlags.none with realNegative := negativeP bn } e s).flags =
        ⟨false, true, decide (n < 0), false⟩ := by
    intro e s
    rw [h.negativeP_eq]
    rfl
  unfold toReal toRealDigits
  split
  · rename_i hlen
    have hpos : 0 < |n| := by
      refine lt_of_le_of_ne (abs_nonneg n) (fun h0 => ?_)
      have hz : (abs bn).sig = [0] := (h0 ▸ hm).sig_eq (by decide)
      simp [hz, sigSegments] at hlen
    obtain ⟨st, hrun, hmag, he⟩ := toRealLoop_spec hm hpos hroom
    exact ⟨real { BignumFlags.none with realNegative := negativeP bn } st.exp st.bnS.sig,
      by rw [hrun]; rfl, ⟨hmag.magnitude, hmag.toInt_eq⟩, he, hflags _ _⟩
  · rename_i hlen
    have hsmall : decimalDigits |n| ≤ sigMaxDigits := by
      have hle := decimalDigits_value_le hm.magnitude.digits
      rw [← hm.magnitude.toInt_eq, hm.toInt_eq] at hle
      simp only [sigSegments, sigMaxDigits, dpw] at hlen hle ⊢
      omega
    rw [Nat.sub_eq_zero_of_le hsmall, pow_zero, Int.ediv_one]
    exact ⟨_, rfl, ⟨hm.magnitude, hm.toInt_eq⟩, rfl, hflags _ _⟩

/-- An integer that some normal real stands for has no more than 18 digits besides
trailing zeros. -/
theorem NormalReal.digits_of_int {r : NormalReal} {n : Int} (h : r.toRat = n) :
    r.absRat = (|n| : Int) ∧ ((decimalDigits |n| - sigMaxDigits : Nat) : Int) ≤ beMax := by
  have habs : r.absRat = (|n| : Int) := by
    rw [Int.cast_abs, ← h]
    rcases r.toRat_nonneg_or with ⟨-, -, hneg, hr⟩ | ⟨hpos, hr⟩
    · rw [abs_of_neg hneg, hr, neg_neg]
    · rw [abs_of_nonneg hpos, hr]
  refine ⟨habs, ?_⟩
  rcases (abs_nonneg n).eq_or_lt with h0 | hpos
  · rw [← h0]
    decide
  · obtain ⟨d, t, hdt, hd, hlast⟩ := exists_mul_pow hpos
    have hne : r.sig ≠ 0 := by
      rw [ne_eq, ← r.absRat_eq_zero_iff, habs]
      exact_mod_cast hpos.ne'
    have hcan := r.canonical.resolve_right (fun hc => hne hc.1)
    have heq : (r.sig : ℚ) * 10 ^ r.exp = d * 10 ^ (t : Int) := by
      rw [zpow_natCast, show (r.sig : ℚ) * 10 ^ r.exp = r.absRat from rfl, habs, hdt]
      push_cast
      rfl
    obtain ⟨hsig, hexp⟩ := mul_zpow_inj hcan hlast heq
    have hdigits := r.digits_le
    have hmax := r.exp_range.2
    rw [hdt, decimalDigits_mul_pow hd, ← hsig]
    omega

/-- The sign stays as digits are cut off. -/
theorem truncate_int (k : Nat) (n : Int) :
    truncate k (n : ℚ) = if n < 0 then - truncate k ((|n| : Int) : ℚ) else truncate k ((|n| : Int) : ℚ) := by
  by_cases hn : n < 0
  · rw [if_pos hn, abs_of_neg hn, Int.cast_neg, truncate_neg, neg_neg]
  · rw [if_neg hn, abs_of_nonneg (not_lt.mp hn)]

/-- **What `idio_bignum_to_real` does**: an integer is cut off after 18 digits, and a condition
is raised where no normal real is the number that is left. -/
theorem toReal_outcome {bn : Bignum} {n : Int} (h : IsInt bn n)
    (hroom : (decimalDigits |n| - sigMaxDigits : Nat) ≤ beMax) :
    (∃ r : NormalReal, toReal bn = .ok r.bn ∧ r.toRat = truncate sigMaxDigits (n : ℚ) ∧
        r.inexact = false) ∨
      (toReal bn = .error exponentOverflow ∧
        ∀ r : NormalReal, r.toRat ≠ truncate sigMaxDigits (n : ℚ)) := by
  obtain ⟨st, hst, hmag, he, hflags⟩ := toReal_eq h hroom
  have hcut : truncate sigMaxDigits
      (((|n| / 10 ^ (decimalDigits |n| - sigMaxDigits) : Int) : ℚ) * 10 ^ st.exp) =
        truncate sigMaxDigits ((|n| : Int) : ℚ) := by
    rw [truncate_mul_zpow_of_le hmag.nonneg (decimalDigits_div_pow_le _ _ (abs_nonneg n)), he]
    have hwhole := truncate_mul_zpow (abs_nonneg n) sigMaxDigits 0
    rw [zpow_zero, mul_one, zero_add] at hwhole
    exact hwhole.symm
  have hexp : beMin ≤ st.exp ∧ st.exp ≤ beMax := by
    rw [he]
    exact ⟨by simp only [beMin]; omega, hroom⟩
  rcases normalize_outcome hmag hexp with ⟨r, hrun, hneg, hin, hval⟩ | ⟨hrun, hnone⟩
  · refine .inl ⟨r, by rw [hst, hrun], ?_, by rw [hin, hflags]⟩
    rw [truncate_int, NormalReal.toRat, hneg, hflags, hval, hcut]
    by_cases hn : n < 0 <;> simp [hn]
  · refine .inr ⟨by rw [hst, hrun], fun r hr => hnone r ?_⟩
    rw [hcut, ← r.abs_toRat, hr, ← truncate_abs, Int.cast_abs]

/-- An integer that has no more digits than the exponents of reals can count is converted. -/
theorem toReal_truncates {bn : Bignum} {n : Int} (h : IsInt bn n)
    (hdigits : (decimalDigits |n| : Int) ≤ beMax + 1) :
    ∃ r : NormalReal, toReal bn = .ok r.bn ∧ r.toRat = truncate sigMaxDigits (n : ℚ) ∧
      r.inexact = false := by
  have hroom : ((decimalDigits |n| - sigMaxDigits : Nat) : Int) ≤ beMax := by
    simp only [sigMaxDigits, beMax] at hdigits ⊢
    omega
  rcases toReal_outcome h hroom with hreal | ⟨-, hnone⟩
  · exact hreal
  · rcases (abs_nonneg n).eq_or_lt with hzero | hpos
    · exact absurd (by simp [abs_eq_zero.mp hzero.symm, NormalReal.toRat, NormalReal.absRat, truncate])
        (hnone ⟨false, false, 0, 0, by decide, by decide, .inr ⟨rfl, rfl⟩⟩)
    · obtain ⟨d, t, hdt, hd, hlast, hvalue⟩ := truncate_canonical hpos 0
      rw [zpow_zero, mul_one, zero_add] at hvalue
      have hlimit := stripped_lt hpos hd hdt
      have hsize : decimalDigits d + t + (decimalDigits |n| - sigMaxDigits) ≤ decimalDigits |n| := by
        rw [← decimalDigits_mul_pow hd, ← hdt, ← decimalDigits_mul_pow (by rw [hdt]; positivity)]
        exact decimalDigits_mono (Int.ediv_mul_le _ (by positivity))
      have hone := decimalDigits_pos hd
      let r : NormalReal := ⟨false, decide (n < 0), (decimalDigits |n| - sigMaxDigits : Nat) + t, d,
        ⟨by simp only [beMin]; omega, by omega⟩, ⟨hd.le, hlimit⟩, .inl hlast⟩
      refine absurd ?_ (hnone r)
      rw [truncate_int, hvalue]
      by_cases hn : n < 0 <;> simp [r, NormalReal.toRat, NormalReal.absRat, hn]

/-- A normal real has no digits to be cut off. -/
theorem NormalReal.truncate_toRat (r : NormalReal) : truncate sigMaxDigits r.toRat = r.toRat := by
  have habs : truncate sigMaxDigits r.absRat = r.absRat :=
    truncate_mul_zpow_of_le r.sig_range.1 r.digits_le r.exp
  rw [NormalReal.toRat]
  cases r.negative
  · exact habs
  · rw [if_pos rfl, truncate_neg, habs]

/-- **Conversion is exact where it can be**: an integer that some normal real
stands for is converted to a real of that value. -/
theorem toReal_exact {bn : Bignum} {n : Int} {r : NormalReal} (h : IsInt bn n)
    (hr : r.toRat = n) :
    ∃ r' : NormalReal, toReal bn = .ok r'.bn ∧ r'.toRat = n ∧ r'.inexact = false := by
  obtain ⟨-, hroom⟩ := NormalReal.digits_of_int hr
  have hwhole : truncate sigMaxDigits (n : ℚ) = n := by rw [← hr, r.truncate_toRat]
  rcases toReal_outcome h hroom with ⟨r', hrun, hval, hin⟩ | ⟨-, hnone⟩
  · exact ⟨r', hrun, by rw [hval, hwhole], hin⟩
  · exact absurd (hr.trans hwhole.symm) (hnone r)

end Bignum

end Idio
