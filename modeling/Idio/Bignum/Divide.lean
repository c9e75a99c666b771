/-
  Bignum/Divide.lean --- long division of integer bignums.

  `equalize` scales the divisor by the greatest power of ten that leaves it below
  the dividend; `divide` then finds one digit of the quotient for each power of
  ten, by adding the scaled divisor up until it exceeds the rest.

  The loop of `equalize` asks for strictly less, so `a = b * 10 ^ m` is scaled by
  `10 ^ (m - 1)` only and the first digit comes out as ten.  The invariant
  `DivideInv` allows for it: the rest may reach ten scaled divisors as long as the
  quotient is still zero, where `shiftLeft` stores the ten as it is.
-/
import Idio.Bignum.Multiply

set_option autoImplicit false

namespace Idio

namespace Bignum

open Decimal Positional WhileLoop

/-! ## The source -/

/-- The variables of `idio_bignum_equalize`. -/
structure EqualizeState where
  rp : Bignum
  fp : Bignum
  rn : Bignum
  fn : Bignum

/-- The body of the loop of `idio_bignum_equalize`. -/
def equalizeStep (st : EqualizeState) : Result EqualizeState := do
  let rn ← shiftLeft st.rn 0
  let fn ← shiftLeft st.fn 0
  pure ⟨st.rn, st.fn, rn, fn⟩

/-- `idio_bignum_equalize`: the scaled divisor and the factor it is scaled by. -/
def equalize (a b : Bignum) : Result (Bignum × Bignum) := do
  let fp := integerIntmaxT 1
  let st ← whileLoop .diverges (fun st => ltP st.rn a) equalizeStep
    (dpw * a.sig.length + 1) ⟨b, fp, b, fp⟩
  pure (st.rp, st.fp)

/-- The variables of the inner loop of `idio_bignum_divide`. -/
structure CountState where
  c : Bignum
  c0 : Bignum
  i : Int

/-- The body of the inner loop of `idio_bignum_divide`. -/
def countStep (sd : Bignum) (st : CountState) : Result CountState :=
  (add st.c sd).map fun c => ⟨c, st.c, st.i + 1⟩

/-- `while (! idio_bignum_lt_p (r_mod, c))`: add `sd` up until it exceeds
`r_mod`. -/
def countMultiples (rMod sd : Bignum) : Result CountState :=
  whileLoop .diverges (fun st => !ltP rMod st.c) (countStep sd)
    ((toInt rMod.sig).toNat + 2) ⟨integerIntmaxT 0, integerIntmaxT 0, 0⟩

/-- The variables of the outer loop of `idio_bignum_divide`. -/
structure DivideState where
  sd : Bignum
  sf : Bignum
  rDiv : Bignum
  rMod : Bignum

/-- The body of the outer loop of `idio_bignum_divide`. -/
def divideStep (st : DivideState) : Result DivideState := do
  let count ← countMultiples st.rMod st.sd
  let rDiv ← shiftLeft st.rDiv (count.i - 1)
  let rMod ← subtract st.rMod count.c0
  pure ⟨(shiftRight st.sd).1, (shiftRight st.sf).1, rDiv, rMod⟩

/-- `idio_bignum_divide`: the pair of quotient and remainder. -/
def divide (a b : Bignum) : Result (Bignum × Bignum) :=
  if zeroP b then .error (.divideByZero "bignum divide by zero")
  else
    let na := negativeP a
    let neg := na != negativeP b
    let aa := abs a
    let ab := abs b
    if ltP aa ab && na then .ok (integerIntmaxT 0, a)
    else do
      let (sd, sf) ← equalize aa ab
      let st ← whileLoop .diverges (fun st => !zeroP st.sf) divideStep
        (dpw * sf.sig.length + 1) ⟨sd, sf, integerIntmaxT 0, aa⟩
      pure (if neg then negate st.rDiv else st.rDiv, if na then negate st.rMod else st.rMod)

/-! ## The scaled divisor -/

/-- The invariant of `idio_bignum_equalize` for `a` and `b`: `rn` and `fn` are
scaled by `10 ^ k`, `rp` and `fp` by one power less, except at the start. -/
def EqualizeInv (a b : Int) (st : EqualizeState) : Prop :=
  ∃ k, IsInt st.rn (b * 10 ^ k) ∧ IsInt st.fn (10 ^ k) ∧
    ((k = 0 ∧ IsInt st.rp b ∧ IsInt st.fp 1) ∨
      ∃ m, k = m + 1 ∧ IsInt st.rp (b * 10 ^ m) ∧ IsInt st.fp (10 ^ m) ∧ b * 10 ^ m < a)

theorem equalizeStep_inv {a b : Int} {bn : Bignum} (ha : IsInt bn a) (hb : 0 < b)
    {st : EqualizeState} (h : EqualizeInv a b st) (hlt : ltP st.rn bn = true) :
    ∃ st', equalizeStep st = .ok st' ∧ EqualizeInv a b st' ∧
      decimalDigits a + 1 - decimalDigits (toInt st'.rn.sig) <
        decimalDigits a + 1 - decimalDigits (toInt st.rn.sig) := by
  obtain ⟨k, hrn, hfn, -⟩ := h
  have hscaled : 0 < b * 10 ^ k := by positivity
  have hless : b * 10 ^ k < a := by simpa [ltP_isInt hrn ha] using hlt
  obtain ⟨rn, hrun, hrni⟩ := shiftLeft_isInt hrn hscaled.le (by decide : (0 : Int) ≤ 0 ∧ (0 : Int) < 10)
  obtain ⟨fn, hfun, hfni⟩ := shiftLeft_isInt hfn (by positivity) (by decide : (0 : Int) ≤ 0 ∧ (0 : Int) < 10)
  refine ⟨⟨st.rn, st.fn, rn, fn⟩, ?_, ⟨k + 1, ?_, ?_, Or.inr ⟨k, rfl, hrn, hfn, hless⟩⟩, ?_⟩
  · simp [equalizeStep, hrun, hfun, bind, Except.bind, pure, Except.pure]
  · rwa [show b * 10 ^ (k + 1) = 10 * (b * 10 ^ k) + 0 by ring]
  · rwa [show (10 : Int) ^ (k + 1) = 10 * 10 ^ k + 0 by ring]
  · have hdigits := decimalDigits_mono hless.le
    rw [hrni.toInt_eq, hrn.toInt_eq, add_zero, decimalDigits_mul_ten hscaled]
    omega

/-- What `idio_bignum_equalize` returns: the divisor scaled by a power of ten and
that power, such that the dividend is at most ten scaled divisors. -/
theorem equalize_spec {a b : Int} {bna bnb : Bignum} (ha : IsInt bna a) (hb : IsInt bnb b)
    (ha0 : 0 ≤ a) (hb0 : 0 < b) :
    ∃ sd sf k, equalize bna bnb = .ok (sd, sf) ∧ IsInt sd (b * 10 ^ k) ∧ IsInt sf (10 ^ k) ∧
      a ≤ 10 * (b * 10 ^ k) := by
  have hone : IsInt (integerIntmaxT 1) 1 := integerIntmaxT_isInt (by decide) (by decide)
  have hinit : EqualizeInv a b ⟨bnb, integerIntmaxT 1, bnb, integerIntmaxT 1⟩ :=
    ⟨0, by simpa using hb, by simpa using hone, Or.inl ⟨rfl, hb, hone⟩⟩
  have hma := ha.magnitude ha0
  have hfuel : decimalDigits a + 1 - decimalDigits (toInt bnb.sig) < dpw * bna.sig.length + 1 := by
    have hle := decimalDigits_value_le hma.digits
    have hpos := decimalDigits_succ hb0
    rw [← hma.toInt_eq, ha.toInt_eq] at hle
    rw [hb.toInt_eq]
    omega
  obtain ⟨st, hrun, ⟨k, hrn, -, hprev⟩, hstop⟩ :=
    @whileLoop_total _ _ Fault.diverges (fun st => ltP st.rn bna) equalizeStep
      (EqualizeInv a b) (fun st => decimalDigits a + 1 - decimalDigits (toInt st.rn.sig))
      (fun st h hc => equalizeStep_inv ha hb0 h hc) _ _ hinit hfuel
  have hge : a ≤ b * 10 ^ k := by simpa [ltP_isInt hrn ha] using hstop
  have hreturn : equalize bna bnb = .ok (st.rp, st.fp) := by
    simp [equalize, hrun, bind, Except.bind, pure, Except.pure]
  rcases hprev with ⟨rfl, hrp, hfp⟩ | ⟨m, rfl, hrp, hfp, -⟩
  · exact ⟨st.rp, st.fp, 0, hreturn, by simpa using hrp, by simpa using hfp, by
      rw [pow_zero, mul_one] at hge ⊢
      omega⟩
  · exact ⟨st.rp, st.fp, m, hreturn, hrp, hfp, by rwa [show 10 * (b * 10 ^ m) = b * 10 ^ (m + 1) by ring]⟩

/-! ## One digit of the quotient -/

/-- The invariant of the inner loop: `c` is the `i`-th multiple of the scaled
divisor, `c0` the one before, which does not exceed the rest. -/
def CountInv (d r : Int) (st : CountState) : Prop :=
  0 ≤ st.i ∧ IsInt st.c (st.i * d) ∧
    (st.i = 0 ∨ (IsInt st.c0 ((st.i - 1) * d) ∧ (st.i - 1) * d ≤ r))

theorem countStep_inv {d r : Int} {sd rMod : Bignum} (hd : IsInt sd d) (hr : IsInt rMod r)
    (hd0 : 0 < d) {st : CountState} (h : CountInv d r st)
    (hc : (!ltP rMod st.c) = true) :
    ∃ st', countStep sd st = .ok st' ∧ CountInv d r st' ∧
      (r + 1 - st'.i * d).toNat < (r + 1 - st.i * d).toNat := by
  obtain ⟨hi, hci, -⟩ := h
  have hle : st.i * d ≤ r := by simpa [ltP_isInt hr hci] using hc
  obtain ⟨c, hrun, hcadd⟩ := add_isInt hci hd
  have hnext : (st.i + 1) * d = st.i * d + d := by ring
  refine ⟨⟨c, st.c, st.i + 1⟩, by simp [countStep, hrun, Except.map], ⟨?_, ?_, Or.inr ?_⟩, ?_⟩
  · show 0 ≤ st.i + 1
    omega
  · simpa only [hnext] using hcadd
  · simpa using ⟨hci, hle⟩
  · simp only [hnext]
    omega

/-- The inner loop ends one multiple past the quotient of the rest by the scaled
divisor. -/
theorem countMultiples_spec {d r : Int} {sd rMod : Bignum} (hd : IsInt sd d)
    (hr : IsInt rMod r) (hd0 : 0 < d) (hr0 : 0 ≤ r) :
    ∃ st, countMultiples rMod sd = .ok st ∧ st.i - 1 = r / d ∧ IsInt st.c0 (r / d * d) := by
  have hzero : IsInt (integerIntmaxT 0) 0 := integerIntmaxT_isInt (by decide) (by decide)
  have hinit : CountInv d r ⟨integerIntmaxT 0, integerIntmaxT 0, 0⟩ :=
    ⟨le_refl _, by simpa using hzero, Or.inl rfl⟩
  obtain ⟨st, hrun, ⟨hi, hc, hprev⟩, hstop⟩ :=
    @whileLoop_total _ _ Fault.diverges (fun st => !ltP rMod st.c) (countStep sd)
      (CountInv d r) (fun st => (r + 1 - st.i * d).toNat)
      (fun st h hc => countStep_inv hd hr hd0 h hc) ((toInt rMod.sig).toNat + 2) _ hinit
      (by rw [hr.toInt_eq]; simp only [zero_mul]; omega)
  have hlt : r < st.i * d := by simpa [ltP_isInt hr hc] using hstop
  rcases hprev with h0 | ⟨hc0, hle⟩
  · rw [h0, zero_mul] at hlt
    omega
  · have hq : r / d = st.i - 1 := by
      apply le_antisymm
      · have : r / d < st.i := Int.ediv_lt_of_lt_mul hd0 hlt
        omega
      · exact Int.le_ediv_of_mul_le hd0 hle
    exact ⟨st, hrun, hq.symm, by rwa [hq]⟩

/-! ## The loop over the digits -/

/-- The invariant of `idio_bignum_divide` for absolute values `a` and `b`: the
quotient so far counts ten scaled divisors, the rest is below that many (or
reaches them, while the quotient is zero), and at the end below `b`. -/
def DivideInv (a b : Int) (st : DivideState) : Prop :=
  ∃ q r, IsInt st.rDiv q ∧ 0 ≤ q ∧ IsInt st.rMod r ∧ 0 ≤ r ∧
    ((IsInt st.sf 0 ∧ a = q * b + r ∧ r < b) ∨
      ∃ k, IsInt st.sf (10 ^ k) ∧ IsInt st.sd (b * 10 ^ k) ∧
        a = q * (10 * (b * 10 ^ k)) + r ∧
        (r < 10 * (b * 10 ^ k) ∨ (q = 0 ∧ r ≤ 10 * (b * 10 ^ k))))

/-- One more digit, or a ten onto a quotient of zero. -/
theorem shiftLeft_digit {rDiv : Bignum} {q i : Int} (hq : IsInt rDiv q) (hq0 : 0 ≤ q)
    (hi0 : 0 ≤ i) (hi : i < 10 ∨ (q = 0 ∧ i ≤ 10)) :
    ∃ r, shiftLeft rDiv i = .ok r ∧ IsInt r (10 * q + i) := by
  rcases hi with hlt | ⟨rfl, hle⟩
  · exact shiftLeft_isInt hq hq0 ⟨hi0, hlt⟩
  · have hsig : rDiv.sig = [0] := (hq.magnitude (le_refl 0)).eq_zero hq.toInt_eq
    have hL : segLimit = 1000000000000000000 := rfl
    have hi' := IsInt.of_magnitude (magnitude_small hi0 (by omega))
    rw [toInt_small hi0] at hi'
    exact ⟨integer [i], shiftLeft_zero hsig, by simpa using hi'⟩

theorem divideStep_inv {a b : Int} (hb : 0 < b) {st : DivideState} (h : DivideInv a b st)
    (hne : zeroP st.sf = false) :
    ∃ st', divideStep st = .ok st' ∧ DivideInv a b st' ∧
      decimalDigits (toInt st'.sf.sig) < decimalDigits (toInt st.sf.sig) := by
  obtain ⟨q, r, hq, hq0, hr, hr0, ⟨hsf, -⟩ | ⟨k, hsf, hsd, ha, hbound⟩⟩ := h
  · simp [hsf.zeroP_eq] at hne
  generalize hd : b * 10 ^ k = d at hsd ha hbound
  have hd0 : 0 < d := by rw [← hd]; positivity
  obtain ⟨count, hcount, hi, hc0⟩ := countMultiples_spec hsd hr hd0 hr0
  have hdm := Int.emod_add_mul_ediv r d
  have hmod0 := Int.emod_nonneg r hd0.ne'
  have hmod := Int.emod_lt_of_pos r hd0
  have hdigit0 : 0 ≤ r / d := Int.ediv_nonneg hr0 hd0.le
  have hdigit : r / d < 10 ∨ (q = 0 ∧ r / d ≤ 10) := by
    rcases hbound with hlt | ⟨h0, hle⟩
    · exact Or.inl (Int.ediv_lt_of_lt_mul hd0 hlt)
    · exact Or.inr ⟨h0, Int.ediv_le_of_le_mul hd0 hle⟩
  obtain ⟨rDiv, hshift, hrDiv⟩ := shiftLeft_digit hq hq0 hdigit0 hdigit
  obtain ⟨rMod, hsub, hrMod⟩ := subtract_isInt hr hc0
  have hrest : r - r / d * d = r % d := by
    rw [mul_comm]
    omega
  rw [hrest] at hrMod
  obtain ⟨hsf', -⟩ := shiftRight_isInt hsf (by positivity)
  obtain ⟨hsd', -⟩ := shiftRight_isInt hsd hd0.le
  refine ⟨⟨(shiftRight st.sd).1, (shiftRight st.sf).1, rDiv, rMod⟩, ?_,
    ⟨10 * q + r / d, r % d, hrDiv, by omega, hrMod, hmod0, ?_⟩, ?_⟩
  · simp [divideStep, hcount, hi, hshift, hsub, bind, Except.bind, pure, Except.pure]
  · have hsum : a = (10 * q + r / d) * d + r % d := by
      calc a = q * (10 * d) + (r % d + d * (r / d)) := by rw [hdm, ha]
        _ = (10 * q + r / d) * d + r % d := by ring
    cases k with
    | zero =>
      -- The last digit: the divisor is no longer scaled.
      rw [pow_zero, mul_one] at hd
      subst hd
      exact Or.inl ⟨hsf', hsum, hmod⟩
    | succ m =>
      have hd10 : d = 10 * (b * 10 ^ m) := by rw [← hd]; ring
      have hpow : (10 : Int) ^ (m + 1) / 10 = 10 ^ m := by
        rw [pow_succ, Int.mul_ediv_cancel _ (by decide)]
      have hdiv : d / 10 = b * 10 ^ m := by
        rw [hd10, Int.mul_ediv_cancel_left _ (by decide)]
      rw [hpow] at hsf'
      rw [hdiv] at hsd'
      exact Or.inr ⟨m, hsf', hsd', by rw [← hd10, hsum], Or.inl (by rwa [← hd10])⟩
  · rw [hsf'.toInt_eq, hsf.toInt_eq]
    exact decimalDigits_div_ten (by positivity)

/-! ## Division -/

/-- The part of `idio_bignum_divide` that divides absolute values. -/
theorem divideLoop_spec {a b : Int} {bna bnb : Bignum} (ha : IsInt bna a) (hb : IsInt bnb b)
    (ha0 : 0 ≤ a) (hb0 : 0 < b) :
    ∃ sd sf st, equalize bna bnb = .ok (sd, sf) ∧
      whileLoop .diverges (fun st => !zeroP st.sf) divideStep (dpw * sf.sig.length + 1)
        ⟨sd, sf, integerIntmaxT 0, bna⟩ = .ok st ∧
      IsInt st.rDiv (a / b) ∧ IsInt st.rMod (a % b) := by
  obtain ⟨sd, sf, k, heq, hsd, hsf, hle⟩ := equalize_spec ha hb ha0 hb0
  have hinit : DivideInv a b ⟨sd, sf, integerIntmaxT 0, bna⟩ :=
    ⟨0, a, integerIntmaxT_isInt (by decide) (by decide), le_refl _, ha, ha0,
      Or.inr ⟨k, hsf, hsd, by ring, Or.inr ⟨rfl, hle⟩⟩⟩
  have hfuel : decimalDigits (toInt sf.sig) < dpw * sf.sig.length + 1 := by
    have hm := hsf.magnitude (by positivity)
    have := decimalDigits_value_le hm.digits
    rw [hm.toInt_eq]
    omega
  obtain ⟨st, hrun, ⟨q, r, hq, -, hr, hr0, hend⟩, hstop⟩ :=
    @whileLoop_total _ _ Fault.diverges (fun st => !zeroP st.sf) divideStep
      (DivideInv a b) (fun st => decimalDigits (toInt st.sf.sig))
      (fun st h hc => divideStep_inv hb0 h (by simpa using hc)) _ _ hinit hfuel
  rcases hend with ⟨-, hsum, hlt⟩ | ⟨k, hsf, -⟩
  · have hdiv : a / b = q ∧ a % b = r :=
      (Int.ediv_emod_unique hb0).mpr ⟨by rw [hsum]; ring, hr0, hlt⟩
    exact ⟨sd, sf, st, heq, hrun, by rwa [hdiv.1], by rwa [hdiv.2]⟩
  · have hpos : (10 : Int) ^ k ≠ 0 := by positivity
    simp [hsf.zeroP_eq, hpos] at hstop

/-- `idio_bignum_divide` is truncated division. -/
theorem divide_isInt {a b : Bignum} {x y : Int} (ha : IsInt a x) (hb : IsInt b y)
    (hy : y ≠ 0) :
    ∃ q r, divide a b = .ok (q, r) ∧ IsInt q (x.tdiv y) ∧ IsInt r (x.tmod y) := by
  have hzero : zeroP b = false := by simp [hb.zeroP_eq, hy]
  have hby : 0 < |y| := abs_pos.mpr hy
  unfold divide
  simp only [hzero, Bool.false_eq_true, if_false, ltP_isInt ha.abs hb.abs, ha.negativeP_eq,
    hb.negativeP_eq]
  split
  · rename_i hsmall
    obtain ⟨hlt, hneg⟩ : |x| < |y| ∧ x < 0 := by simpa using hsmall
    have hq : x.tdiv y = 0 := by
      rw [Int.abs_eq_natAbs, Int.abs_eq_natAbs] at hlt
      rw [← Int.natAbs_eq_zero, Int.natAbs_tdiv]
      exact Nat.div_eq_of_lt (by omega)
    have hr : x.tmod y = x := by
      have := Int.tmod_add_mul_tdiv x y
      rw [hq, mul_zero, add_zero] at this
      exact this
    exact ⟨_, _, rfl, by rw [hq]; exact integerIntmaxT_isInt (by decide) (by decide), by rwa [hr]⟩
  · obtain ⟨sd, sf, st, heq, hrun, hq, hr⟩ := divideLoop_spec ha.abs hb.abs (abs_nonneg x) hby
    refine ⟨_, _, by simp only [heq, hrun, bind, Except.bind, pure, Except.pure]; rfl, ?_, ?_⟩
    · rcases abs_cases x with ⟨hax, hx⟩ | ⟨hax, hx⟩ <;>
        rcases abs_cases y with ⟨hay, hyn⟩ | ⟨hay, hyn⟩ <;> rw [hax, hay] at hq
      · simpa [not_lt.mpr hx, not_lt.mpr hyn, Int.tdiv_eq_ediv_of_nonneg hx] using hq
      · have := hq.negate
        rw [Int.ediv_neg, neg_neg, ← Int.tdiv_eq_ediv_of_nonneg hx] at this
        simpa [not_lt.mpr hx, hyn] using this
      · have := hq.negate
        rw [← Int.tdiv_eq_ediv_of_nonneg (by omega), Int.neg_tdiv, neg_neg] at this
        simpa [hx, not_lt.mpr hyn] using this
      · rw [← Int.tdiv_eq_ediv_of_nonneg (by omega), Int.neg_tdiv, Int.tdiv_neg, neg_neg] at hq
        simpa [hx, hyn] using hq
    · rcases abs_cases x with ⟨hax, hx⟩ | ⟨hax, hx⟩
      · rw [hax, Int.emod_abs, ← Int.tmod_eq_emod_of_nonneg hx] at hr
        simpa [not_lt.mpr hx] using hr
      · have := hr.negate
        rw [hax, Int.emod_abs, ← Int.tmod_eq_emod_of_nonneg (by omega), Int.neg_tmod,
          neg_neg] at this
        simpa [hx] using this

/-- **Integer bignum division is truncated division.**  With a divisor other than
zero it returns a quotient and a remainder, both normal integers, the remainder
smaller than the divisor and zero or of the sign of the dividend. -/
theorem divide_exact (a b : NormalInteger) (hb : b.toInt ≠ 0) :
    ∃ q r : NormalInteger, divide a.bn b.bn = .ok (q.bn, r.bn) ∧
      a.toInt = q.toInt * b.toInt + r.toInt ∧ |r.toInt| < |b.toInt| ∧
      (r.toInt = 0 ∨ r.toInt.sign = a.toInt.sign) := by
  obtain ⟨q, r, hrun, hq, hr⟩ := divide_isInt a.isInt b.isInt hb
  refine ⟨hq.toNormal, hr.toNormal, hrun, ?_, ?_, ?_⟩
  · rw [hq.toNormal_toInt, hr.toNormal_toInt]
    have := Int.tmod_add_mul_tdiv a.toInt b.toInt
    rw [mul_comm] at this
    omega
  · rw [hr.toNormal_toInt, Int.abs_eq_natAbs, Int.abs_eq_natAbs, Int.natAbs_tmod]
    exact_mod_cast Nat.mod_lt _ (Int.natAbs_pos.mpr hb)
  · rw [hr.toNormal_toInt]
    by_cases h0 : a.toInt.tmod b.toInt = 0
    · exact Or.inl h0
    · refine Or.inr ?_
      rcases le_or_gt 0 a.toInt with ha | ha
      · have hpos : 0 < a.toInt.tmod b.toInt := by
          have := Int.tmod_nonneg b.toInt ha
          omega
        have : 0 < a.toInt := by
          rcases ha.lt_or_eq with h | h
          · exact h
          · rw [← h, Int.zero_tmod] at hpos
            omega
        rw [Int.sign_eq_one_of_pos hpos, Int.sign_eq_one_of_pos this]
      · have hle := Int.tmod_nonneg b.toInt (by omega : 0 ≤ - a.toInt)
        rw [Int.neg_tmod] at hle
        rw [Int.sign_eq_neg_one_of_neg (by omega), Int.sign_eq_neg_one_of_neg ha]

/-- A dividend that is the divisor times a power of ten, with the signs apart. -/
theorem divide_exact_thousand :
    ∃ q r : NormalInteger,
      divide (integerIntmaxT 1000) (integerIntmaxT (-10)) = .ok (q.bn, r.bn) ∧
        1000 = q.toInt * -10 + r.toInt ∧ |r.toInt| < |-10| ∧
        (r.toInt = 0 ∨ r.toInt.sign = (1000 : Int).sign) := by
  have h := divide_exact (normalIntmax 1000 (by decide) (by decide))
    (normalIntmax (-10) (by decide) (by decide)) (by rw [normalIntmax_toInt]; decide)
  rwa [normalIntmax_toInt, normalIntmax_toInt] at h

end Bignum

end Idio
