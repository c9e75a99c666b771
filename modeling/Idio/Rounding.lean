/-
  Rounding.lean --- `floor`, `ceiling`, `truncate` and `round`.

  `floor` of a real drops the digits after the point, and counts one up where the real
  is negative.  A real whose digits all come far after the point goes another way, which
  gives zero, whatever the sign (`floor_real`); so `ceiling` gives zero for such a real
  above zero.

  `round` adds one half, and the sum is cut off after 18 digits like every real.
-/
import Idio.NumberTheory

set_option autoImplicit false

namespace Idio

open Bignum Decimal

/-! ## The functions -/

/-- The loop of `idio_bignum_primitive_floor`, which counts the exponent up to zero. -/
def floorLoop : Nat → Bignum → Bignum
  | 0, bnI => bnI
  | n + 1, bnI => floorLoop n (shiftRight bnI).1

/-- `idio_bignum_primitive_floor`. -/
def bignumPrimitiveFloor (bn : Bignum) : Result Bignum :=
  if bn.exp ≥ 0 then .ok bn
  else if sigMaxDigits + bn.exp < 0 then
    .ok (real BignumFlags.none 0 (integerIntmaxT 0).sig)
  else do
    let bnI := floorLoop (- bn.exp).toNat (integer bn.sig)
    let bnI ← (if realNegativeP bn then add bnI (integerIntmaxT 1) else pure bnI)
    normalize (real bn.flags 0 bnI.sig)

/-- `floor`. -/
def Num.floor : Num → Result Num
  | .fixnum a => .ok (.fixnum a)
  | .bignum a => (bignumPrimitiveFloor a).map .bignum

/-- `ceiling`. -/
def Num.ceiling (x : Num) : Result Num := do
  Num.subtract (← Num.floor (← x.subtract [])) []

/-- `truncate`. -/
def Num.truncate (x : Num) : Result Num := do
  if ← x.binaryLt (.fixnum 0) then x.ceiling else x.floor

/-- `idio_bignum_real_to_exact`. -/
def realToExact (bn : Bignum) : Bignum := real { bn.flags with realInexact := false } bn.exp bn.sig

/-- `inexact->exact`. -/
def Num.inexactToExact : Num → Result Num
  | .fixnum a => .ok (.fixnum a)
  | .bignum bn =>
      if bn.flags.integer then .ok (toFixnum bn)
      else (realToInteger bn).map fun i => toFixnum (i.getD (realToExact bn))

/-- `odd?`. -/
def Num.oddP (x : Num) : Result Bool := do pure (!(← x.evenP))

/-- `binary-+`, which the infix `+` becomes. -/
def Num.binaryAdd : Num → Num → Result Num := arithmeticBinary fixnumPrimitiveAdd bignumPrimitiveAdd

/-- `binary--`, which the infix `-` becomes. -/
def Num.binarySubtract (n1 n2 : Num) : Result Num :=
  if n1.isBignum || n2.isBignum then
    (bignumPrimitiveSubtract n1.toBignum [n2.toBignum]).map toFixnum
  else fixnumPrimitiveSubtract n1.fixnumVal [n2.fixnumVal]

/-- `binary-eq`, which the infix `eq` becomes. -/
def Num.binaryEq : Num → Num → Result Bool :=
  arithmeticBinaryCmp (fun c h => decide (c = h)) realEqualP

/-- The constant 0.5. -/
def half : NormalReal := exactReal (-1) 5 (by decide) (by decide) (by decide)

/-- `round`. -/
def Num.round (x : Num) : Result Num := do
  let xp ← Num.binaryAdd (.bignum half.bn) x
  let rx ← xp.floor
  let odd ← (← rx.inexactToExact).oddP
  let tie ← (if odd then xp.binaryEq rx else pure false)
  if tie then rx.binarySubtract (.fixnum 1) else pure rx

namespace Bignum

/-! ## Reals of a given value -/

theorem NormalReal.exists_absRat {m e : Int} (hm : 0 ≤ m) (he : beMin ≤ e)
    (hle : (m : ℚ) * 10 ^ e ≤ 10 ^ (20 : Int)) (neg : Bool) :
    ∃ r : NormalReal, r.negative = neg ∧
      r.absRat = Decimal.truncate sigMaxDigits ((m : ℚ) * 10 ^ e) := by
  rcases hm.eq_or_lt with rfl | hpos
  · exact ⟨⟨false, neg, 0, 0, by decide, by decide, .inr ⟨rfl, rfl⟩⟩, rfl,
      by simp [NormalReal.absRat, Decimal.truncate]⟩
  · obtain ⟨d, t, hdt, hd, hlast, hvalue⟩ := truncate_canonical hpos e
    generalize hf : e + (decimalDigits m - sigMaxDigits : Nat) + t = f at hvalue
    -- The first digit stands where it stood.
    have hroom : ¬ decimalDigits 10 + 20 < decimalDigits m + e := fun hlt => by
      have := @mul_zpow_lt_of_digits_lt 10 m 20 e (by decide) hpos hlt
      have hpow : (0 : ℚ) < 10 ^ (20 : Int) := by positivity
      push_cast at this
      linarith
    have hdigits : decimalDigits d + t ≤ 18 ∧ (decimalDigits m - sigMaxDigits : Nat) ≤ decimalDigits m := by
      rw [← decimalDigits_mul_pow hd, ← hdt]
      exact ⟨decimalDigits_div_pow_le m sigMaxDigits hm, Nat.sub_le _ _⟩
    have hten : decimalDigits 10 = 2 := by decide
    have hbe : beMax = 2147483647 := rfl
    exact ⟨⟨false, neg, f, d, ⟨by omega, by omega⟩, ⟨hd.le, stripped_lt hpos hd hdt⟩, .inl hlast⟩,
      rfl, hvalue.symm⟩

/-- There is a real for what is left after 18 digits, where the exponent has room. -/
theorem NormalReal.exists_toRat {m e : Int} (he : beMin ≤ e)
    (hle : |(m : ℚ) * 10 ^ e| ≤ 10 ^ (20 : Int)) :
    ∃ r : NormalReal, r.toRat = Decimal.truncate sigMaxDigits ((m : ℚ) * 10 ^ e) := by
  have habs : ((|m| : Int) : ℚ) * 10 ^ e = |(m : ℚ) * 10 ^ e| := by
    rw [abs_mul, Int.cast_abs, abs_of_pos (by positivity : (0 : ℚ) < 10 ^ e)]
  obtain ⟨r, hneg, hr⟩ :=
    NormalReal.exists_absRat (abs_nonneg m) he (habs ▸ hle) (decide (m < 0))
  refine ⟨r, ?_⟩
  rw [NormalReal.toRat, hneg, hr]
  by_cases h : m < 0
  · rw [if_pos (decide_eq_true h), abs_of_neg h, ← truncate_neg]
    push_cast
    rw [neg_mul, neg_neg]
  · rw [if_neg (by simpa using h), abs_of_nonneg (not_lt.mp h)]

/-- What has at most 18 digits is not cut off. -/
theorem truncate_of_abs_lt {m : Int} (hm : |m| < segLimit) (e : Int) :
    Decimal.truncate sigMaxDigits ((m : ℚ) * 10 ^ e) = m * 10 ^ e := by
  have habs : ∀ {n : Int}, 0 ≤ n → n < segLimit →
      Decimal.truncate sigMaxDigits ((n : ℚ) * 10 ^ e) = n * 10 ^ e := fun h0 hlt =>
    truncate_mul_zpow_of_le h0 ((decimalDigits_le_iff h0).mpr hlt) e
  rcases le_total 0 m with h | h
  · exact habs h (abs_of_nonneg h ▸ hm)
  · have hneg := habs (neg_nonneg.mpr h) (abs_of_nonpos h ▸ hm)
    push_cast at hneg
    rw [neg_mul, truncate_neg, neg_inj] at hneg
    exact hneg

theorem truncate_intCast {n : Int} (h : |n| ≤ segLimit) :
    Decimal.truncate sigMaxDigits (n : ℚ) = n := by
  have hlimit : segLimit = 1000000000000000000 := rfl
  rcases h.lt_or_eq with hlt | heq
  · have h0 := truncate_of_abs_lt hlt 0
    rwa [zpow_zero, mul_one] at h0
  · -- The limit itself has more digits, but they are zeros.
    obtain ⟨k, hk, hn⟩ : ∃ k : Int, |k| < segLimit ∧ (n : ℚ) = k * 10 ^ (18 : Int) := by
      rcases abs_eq segLimit_pos.le |>.mp heq with rfl | rfl
      · exact ⟨1, by decide, by norm_num [hlimit]⟩
      · exact ⟨-1, by decide, by norm_num [hlimit]⟩
    rw [hn, truncate_of_abs_lt hk]

theorem NormalReal.exists_of_int {n : Int} (h : |n| ≤ segLimit) :
    ∃ r : NormalReal, r.toRat = n := by
  obtain ⟨r, hr⟩ := @NormalReal.exists_toRat n 0 (by decide) (by
    have hle : ((|n| : Int) : ℚ) ≤ segLimit := by exact_mod_cast h
    rw [zpow_zero, mul_one, ← Int.cast_abs]
    exact hle.trans (by norm_num [segLimit]))
  rw [zpow_zero, mul_one, truncate_intCast h] at hr
  exact ⟨r, hr⟩

/-- A real without digits after the point. -/
theorem NormalReal.exists_int {r : NormalReal} (h : 0 ≤ r.exp) : ∃ n : Int, r.toRat = n := by
  have hshift := r.toRat_eq.trans (mul_zpow_shift h)
  rw [zpow_zero, mul_one] at hshift
  exact ⟨_, hshift⟩

/-! ## `floor` -/

theorem floorLoop_isInt {bn : Bignum} {m : Int} (h : IsInt bn m) (hm : 0 ≤ m) (k : Nat) :
    IsInt (floorLoop k bn) (m / 10 ^ k) := by
  induction k generalizing bn m with
  | zero => simpa [floorLoop] using h
  | succ k ih =>
    have hstep := ih (shiftRight_isInt h hm).1 (by positivity)
    rwa [Int.ediv_ediv_of_nonneg (by decide), ← pow_succ'] at hstep

/-- A real that is not negative, with digits after the point. -/
theorem floor_absRat {r : NormalReal} (hexp : r.exp < 0) :
    ⌊r.absRat⌋ = r.sig / 10 ^ (- r.exp).toNat := by
  have h := @floor_mul_pow_div r.sig 0 (- r.exp).toNat
  simp only [pow_zero, mul_one] at h
  rw [← h, NormalReal.absRat]
  congr 1
  rw [div_eq_mul_inv, ← zpow_natCast, ← zpow_neg]
  congr 2
  omega

/-- A real other than zero with digits after the point is no integer. -/
theorem floor_neg_absRat {r : NormalReal} (hexp : r.exp < 0) :
    ⌊- r.absRat⌋ = - (r.sig / 10 ^ (- r.exp).toNat + 1) := by
  have hlast : r.sig % 10 ≠ 0 := r.canonical.resolve_right fun h => by omega
  have hfloor := floor_absRat hexp
  have hne : r.absRat ≠ (r.sig / 10 ^ (- r.exp).toNat : Int) := by
    intro h
    obtain ⟨-, he⟩ := @mul_zpow_inj_of_le r.sig (r.sig / 10 ^ (- r.exp).toNat) r.exp 0 hlast hexp.le
      (by rw [zpow_zero, mul_one]; exact h)
    omega
  have hle := Int.floor_le r.absRat
  have hlt := Int.lt_floor_add_one r.absRat
  rw [hfloor] at hle hlt
  rw [Int.floor_eq_iff]
  push_cast at *
  constructor
  · linarith
  · have := lt_of_le_of_ne hle (Ne.symm hne)
    linarith

/-- The digits before the point, one up for a negative real. -/
theorem floor_digits {r : NormalReal} (hlt : r.exp < 0) :
    ∃ bnI m,
      (if realNegativeP r.bn then add (floorLoop (- r.exp).toNat (integer r.bn.sig)) (integerIntmaxT 1)
        else pure (floorLoop (- r.exp).toNat (integer r.bn.sig))) = Except.ok bnI ∧
      IsInt bnI m ∧ (0 ≤ m ∧ m < segLimit) ∧
      ((if r.negative then - m else m : Int) : ℚ) = ⌊r.toRat⌋ := by
  have hd : IsInt (floorLoop (- r.exp).toNat (integer r.bn.sig)) (r.sig / 10 ^ (- r.exp).toNat) :=
    floorLoop_isInt r.hasMagnitude.isInt r.sig_range.1 _
  have hd0 : 0 ≤ r.sig / 10 ^ (- r.exp).toNat := Int.ediv_nonneg r.sig_range.1 (by positivity)
  have hlimit : segLimit = 1000000000000000000 := rfl
  have hd1 : r.sig / 10 ^ (- r.exp).toNat < 100000000000000000 := by
    obtain ⟨k, hk⟩ : ∃ k, (- r.exp).toNat = k + 1 := ⟨(- r.exp).toNat - 1, by omega⟩
    have hp : (1 : Int) ≤ 10 ^ k := one_le_pow₀ (by decide)
    have hsig := r.sig_range.2
    refine Int.ediv_lt_of_lt_mul (by positivity) ?_
    rw [hk, pow_succ]
    omega
  have hpos : 0 < r.absRat := by
    refine lt_of_le_of_ne r.absRat_nonneg fun h => ?_
    have h0 := r.absRat_eq_zero_iff.mp h.symm
    rcases r.canonical with hc | hc <;> omega
  rw [r.realNegativeP_eq]
  cases hneg : r.negative with
  | true =>
    have hr : r.toRat = - r.absRat := if_pos hneg
    obtain ⟨bnI, hadd, hi⟩ := add_isInt hd (integerIntmaxT_isInt (by decide) (by decide) :
      IsInt (integerIntmaxT 1) 1)
    refine ⟨bnI, _, ?_, hi, by omega, ?_⟩
    · rw [decide_eq_true (by rw [hr]; linarith), if_pos rfl, hadd]
    · rw [if_pos rfl, hr, floor_neg_absRat hlt]
  | false =>
    have hr : r.toRat = r.absRat := if_neg (by rw [hneg]; decide)
    refine ⟨_, _, ?_, hd, by omega, ?_⟩
    · rw [decide_eq_false (by rw [hr]; linarith), if_neg (by decide)]
      rfl
    · rw [if_neg (by decide), hr, floor_absRat hlt]

theorem floor_real (r : NormalReal) :
    ∃ s : NormalReal, bignumPrimitiveFloor r.bn = .ok s.bn ∧
      (-18 ≤ r.exp → s.toRat = ⌊r.toRat⌋ ∧ s.inexact = r.inexact) ∧
      (r.exp < -18 → s.toRat = 0) := by
  have hexp : r.bn.exp = r.exp := rfl
  by_cases h0 : 0 ≤ r.exp
  · refine ⟨r, if_pos h0, fun _ => ⟨?_, rfl⟩, fun h => by omega⟩
    obtain ⟨n, hn⟩ := r.exists_int h0
    rw [hn, Int.floor_intCast]
  have hmax : (sigMaxDigits : Int) = 18 := rfl
  by_cases hfar : sigMaxDigits + r.exp < 0
  · refine ⟨⟨false, false, 0, 0, by decide, by decide, .inr ⟨rfl, rfl⟩⟩, ?_, fun h => by omega,
      fun _ => by simp [NormalReal.toRat, NormalReal.absRat]⟩
    rw [bignumPrimitiveFloor, hexp, if_neg h0, if_pos hfar]
    rfl
  obtain ⟨bnI, m, hrun, hi, hm, hfloor⟩ := @floor_digits r (by omega)
  have hmag : HasMagnitude (real r.bn.flags 0 bnI.sig) m := ⟨hi.magnitude hm.1, hi.toInt_eq⟩
  have hcut : Decimal.truncate sigMaxDigits ((m : ℚ) * 10 ^ (0 : Int)) = m := by
    rw [zpow_zero, mul_one, truncate_intCast (by rw [abs_of_nonneg hm.1]; exact hm.2.le)]
  rcases normalize_outcome hmag (by decide : beMin ≤ (0 : Int) ∧ (0 : Int) ≤ beMax) with
    ⟨s, hs, hneg, hin, hval⟩ | ⟨-, hnone⟩
  · refine ⟨s, ?_, fun _ => ⟨?_, hin⟩, fun h => by omega⟩
    · rw [bignumPrimitiveFloor, hexp, if_neg h0, if_neg hfar]
      show (_ >>= fun bnI : Bignum => normalize (real r.bn.flags 0 bnI.sig)) = _
      rw [hrun, ok_bind, hs]
    · have hneg' : s.negative = r.negative := hneg
      rw [← hfloor, NormalReal.toRat, hneg', hval, real_exp, hcut]
      split <;> simp
  · obtain ⟨s, -, hs⟩ := @NormalReal.exists_absRat m 0 hm.1 (by decide) (by
      have : (m : ℚ) ≤ segLimit := by exact_mod_cast hm.2.le
      rw [zpow_zero, mul_one]
      exact this.trans (by norm_num [segLimit])) false
    exact absurd hs (hnone s)

theorem NormalReal.absRat_lt {r : NormalReal} {e : Int} (h : r.exp ≤ e) :
    r.absRat < 10 ^ (18 + e) := by
  have hlt : (r.sig : ℚ) < 10 ^ (18 : Int) := by exact_mod_cast r.sig_range.2
  have h0 : (0 : ℚ) ≤ r.sig := by exact_mod_cast r.sig_range.1
  have hle : (10 : ℚ) ^ r.exp ≤ 10 ^ e := zpow_le_zpow_right₀ (by norm_num) h
  calc r.absRat ≤ r.sig * 10 ^ e := by
        rw [NormalReal.absRat]
        gcongr
    _ < 10 ^ (18 : Int) * 10 ^ e := by gcongr
    _ = 10 ^ (18 + e) := by rw [zpow_add₀ (by norm_num)]

end Bignum

/-! ## Numbers -/

/-- `idio_bignum_integer` stores the exponent zero. -/
def Number.ZeroExponent : Number → Prop
  | .fixnum _ _ => True
  | .integer a => a.bn.exp = 0
  | .real _ => True

/-- A real with an exponent below -18, which is less than one tenth. -/
def Number.Tiny : Number → Prop
  | .fixnum _ _ => False
  | .integer _ => False
  | .real r => r.exp < -18

/-- The call returns a number of the value `q`. -/
def ReturnsValue (res : Result Num) (q : ℚ) : Prop := ∃ y : Number, res = .ok y.toNum ∧ y.value = q

theorem Number.value_of_toNum {x y : Number} (h : x.toNum = y.toNum) : x.value = y.value := by
  cases x with
  | fixnum v hv =>
    cases y with
    | fixnum w hw =>
      rw [Number.toNum, Number.toNum, Num.fixnum.injEq] at h
      rw [Number.value, Number.value, h]
    | integer b => cases h
    | real s => cases h
  | integer a =>
    cases y with
    | fixnum w hw => cases h
    | integer b =>
      have hbn : a.bn = b.bn := Num.bignum.inj h
      rw [Number.value, Number.value, NormalInteger.toInt, hbn, NormalInteger.toInt]
    | real s =>
      have hbn : a.bn = s.bn := Num.bignum.inj h
      have hflag := a.isInteger
      rw [hbn] at hflag
      cases hflag
  | real r =>
    cases y with
    | fixnum w hw => cases h
    | integer b =>
      have hbn : r.bn = b.bn := Num.bignum.inj h
      have hflag := b.isInteger
      rw [← hbn] at hflag
      cases hflag
    | real s =>
      have hbn : r.bn = s.bn := Num.bignum.inj h
      simp only [NormalReal.bn, Bignum.mk.injEq, BignumFlags.mk.injEq, List.cons.injEq] at hbn
      rw [Number.value, Number.value, NormalReal.toRat, NormalReal.toRat, NormalReal.absRat,
        NormalReal.absRat, hbn.1.2.2.1, hbn.2.1, hbn.2.2.1]

theorem returnsValue_iff {res : Result Num} {y : Number} (h : res = .ok y.toNum) (q : ℚ) :
    ReturnsValue res q ↔ y.value = q := by
  constructor
  · rintro ⟨z, hz, hq⟩
    rw [h] at hz
    rw [Number.value_of_toNum (Except.ok.inj hz), hq]
  · exact fun hq => ⟨y, h, hq⟩

/-! ## `ceiling` and `truncate` -/

/-- A value of which the last digits are lost, and the whole if they are all. -/
theorem tiny_iff {r : NormalReal} {q : ℚ} (hv : -18 ≤ r.exp → q = ⌊r.toRat⌋)
    (h0 : r.exp < -18 → q = 0) : q = ⌊r.toRat⌋ ↔ ¬ (r.exp < -18 ∧ r.toRat < 0) := by
  by_cases htiny : r.exp < -18
  · have hone : r.absRat < 1 := 
      (@NormalReal.absRat_lt r (-19) (by omega)).trans (by norm_num)
    rw [h0 htiny]
    constructor
    · rintro hq ⟨-, hneg⟩
      have hfloor : ⌊r.toRat⌋ = 0 := by exact_mod_cast hq.symm
      exact absurd (Int.floor_eq_zero_iff.mp hfloor).1 (not_le.mpr hneg)
    · intro h
      have hpos : 0 ≤ r.toRat := not_lt.mp fun hneg => h ⟨htiny, hneg⟩
      rw [← r.abs_toRat, abs_of_nonneg hpos] at hone
      rw [Int.floor_eq_zero_iff.mpr ⟨hpos, hone⟩, Int.cast_zero]
  · exact ⟨fun _ h => htiny h.1, fun _ => hv (not_lt.mp htiny)⟩

theorem negate_integer {x : Number} (hx : x.IsInteger) (h0 : x.ZeroExponent) :
    ∃ y : Number, x.toNum.subtract [] = .ok y.toNum ∧ y.IsInteger ∧ y.ZeroExponent ∧
      y.intValue = - x.intValue := by
  cases x with
  | real r => exact hx.elim
  | fixnum v hv =>
    have hrun : Num.subtract (.fixnum v) [] = .ok
        (if - v > fixnumMax ∨ - v < fixnumMin then .bignum (integerIntmaxT (- v))
          else .fixnum (- v)) := rfl
    show ∃ y : Number, Num.subtract (.fixnum v) [] = _ ∧ _
    rw [hrun]
    by_cases hout : - v > fixnumMax ∨ - v < fixnumMin
    · have hi : IsInt (integerIntmaxT (- v)) (- v) := by
        have hlo : fixnumMin ≤ v := hv.1
        have hhi : v ≤ fixnumMax := hv.2
        simp only [fixnumMin, fixnumMax] at hlo hhi
        exact integerIntmaxT_isInt (by simp only [intmaxMin]; omega) (by simp only [intmaxMax]; omega)
      rw [if_pos hout]
      exact ⟨.integer hi.toNormal, rfl, trivial, rfl, hi.toNormal_toInt⟩
    · rw [if_neg hout]
      exact ⟨.fixnum (- v) (not_inFixnumRange hout), rfl, trivial, trivial, rfl⟩
  | integer a =>
    have hi := a.isInt.negate
    have hrun : Num.subtract (.bignum a.bn) [] = .ok (toFixnum (negate a.bn)) := by
      show (Except.ok (if a.bn.flags.integer then negate a.bn else realNegate a.bn)).map toFixnum = _
      rw [if_pos a.isInteger]
      rfl
    have hfix := toFixnum_isInt hi
    show ∃ y : Number, Num.subtract (.bignum a.bn) [] = _ ∧ _
    rw [hrun, hfix]
    by_cases hin : InFixnumRange (- a.toInt)
    · rw [if_pos hin]
      exact ⟨.fixnum _ hin, rfl, trivial, trivial, rfl⟩
    · rw [if_neg hin]
      exact ⟨.integer hi.toNormal, rfl, trivial, h0, hi.toNormal_toInt⟩

theorem negate_real (r : NormalReal) :
    ∃ s : NormalReal, Num.subtract (.bignum r.bn) [] = .ok (.bignum s.bn) ∧
      s.toRat = - r.toRat ∧ s.exp = r.exp := by
  obtain ⟨s, hs, hval, -, hexp⟩ := r.realNegate_bn
  refine ⟨s, ?_, hval, hexp⟩
  show Except.ok (toFixnum (realNegate r.bn)) = _
  rw [hs]
  rfl

theorem floor_integer {x : Number} (hx : x.IsInteger) (h0 : x.ZeroExponent) :
    x.toNum.floor = .ok x.toNum := by
  cases x with
  | real r => exact hx.elim
  | fixnum v hv => rfl
  | integer a =>
    show (bignumPrimitiveFloor a.bn).map Num.bignum = _
    rw [bignumPrimitiveFloor, if_pos (by rw [show a.bn.exp = 0 from h0])]
    rfl

theorem ceiling_integer {x : Number} (hx : x.IsInteger) (h0 : x.ZeroExponent) :
    ∃ y : Number, x.toNum.ceiling = .ok y.toNum ∧ y.value = x.value := by
  obtain ⟨y, hy, hyi, hy0, hyv⟩ := negate_integer hx h0
  obtain ⟨z, hz, hzi, -, hzv⟩ := negate_integer hyi hy0
  refine ⟨z, ?_, by rw [hzi.value_eq, hzv, hyv, neg_neg, hx.value_eq]⟩
  rw [Num.ceiling, hy, ok_bind, floor_integer hyi hy0, ok_bind, hz]

theorem ceiling_real (r : NormalReal) :
    ∃ s : NormalReal, Num.ceiling (.bignum r.bn) = .ok (.bignum s.bn) ∧
      (s.toRat = ⌈r.toRat⌉ ↔ ¬ (r.exp < -18 ∧ 0 < r.toRat)) := by
  obtain ⟨n, hn, hnv, hne⟩ := negate_real r
  obtain ⟨f, hf, hfv, hf0⟩ := floor_real n
  obtain ⟨s, hs, hsv, -⟩ := negate_real f
  refine ⟨s, ?_, ?_⟩
  · rw [Num.ceiling, hn, ok_bind]
    show ((bignumPrimitiveFloor n.bn).map Num.bignum >>= fun y => Num.subtract y []) = _
    rw [hf]
    exact hs
  · have hiff := tiny_iff (fun h => (hfv h).1) hf0
    rw [hnv, hne, Int.floor_neg, neg_lt_zero] at hiff
    rw [hsv, ← hiff, neg_eq_iff_eq_neg]
    push_cast
    rfl

theorem floor_value {x : Number} (h0 : x.ZeroExponent) :
    ReturnsValue x.toNum.floor ⌊x.value⌋ ↔ ¬ (x.Tiny ∧ x.value < 0) := by
  have integer (hx : x.IsInteger) : ReturnsValue x.toNum.floor ⌊x.value⌋ := by
    rw [returnsValue_iff (floor_integer hx h0), hx.value_eq, Int.floor_intCast]
  cases x with
  | fixnum v hv => exact ⟨fun _ h => h.1, fun _ => integer trivial⟩
  | integer a => exact ⟨fun _ h => h.1, fun _ => integer trivial⟩
  | real r =>
    obtain ⟨s, hs, hsv, hs0⟩ := floor_real r
    have hrun : (Number.real r).toNum.floor = .ok (Number.real s).toNum := by
      show (bignumPrimitiveFloor r.bn).map Num.bignum = _
      rw [hs]
      rfl
    rw [returnsValue_iff hrun]
    exact tiny_iff (fun h => (hsv h).1) hs0

/-- **`floor`.**  It gives the greatest integer that is not above its argument, but for negative reals
below the shortcut. -/
theorem floor_greatest {x : Number} (h0 : x.ZeroExponent) :
    (∃ n : Int, ReturnsValue x.toNum.floor n ∧ n ≤ x.value ∧ x.value < n + 1) ↔
      ¬ (x.Tiny ∧ x.value < 0) := by
  rw [← floor_value h0]
  constructor
  · rintro ⟨n, hn, hle, hlt⟩
    rwa [Int.floor_eq_iff.mpr ⟨hle, hlt⟩]
  · intro h
    exact ⟨⌊x.value⌋, h, Int.floor_le x.value, Int.lt_floor_add_one x.value⟩

/-- -2.5. -/
theorem floor_greatest_fraction :
    ∃ n : Int, ReturnsValue
        (Num.floor (.bignum ⟨⟨false, true, true, false⟩, -1, [25]⟩)) n ∧
      (n : ℚ) ≤ -5 / 2 ∧ (-5 / 2 : ℚ) < n + 1 := by
  have hval : (Number.real ⟨false, true, -1, 25, by decide, by decide, .inl (by decide)⟩).value =
      -5 / 2 := by
    norm_num [Number.value, NormalReal.toRat, NormalReal.absRat]
  have h := (@floor_greatest
    (.real ⟨false, true, -1, 25, by decide, by decide, .inl (by decide)⟩) trivial).mpr
    (fun htiny => absurd htiny.1 (show ¬ (-1 : Int) < -18 by decide))
  rwa [hval] at h

/-- -1e-19 is given zero. -/
theorem floor_tiny :
    Num.floor (.bignum ⟨⟨false, true, true, false⟩, -19, [1]⟩) =
        .ok (.bignum ⟨⟨false, true, false, false⟩, 0, [0]⟩) ∧
      ¬ ∃ n : Int, ReturnsValue
          (Num.floor (.bignum ⟨⟨false, true, true, false⟩, -19, [1]⟩)) n ∧
        (n : ℚ) ≤ -1 / 10 ^ 19 ∧ (-1 / 10 ^ 19 : ℚ) < n + 1 := by
  refine ⟨by rfl, ?_⟩
  rintro ⟨n, hn, hle, -⟩
  have hzero := (returnsValue_iff (y := .real ⟨false, false, 0, 0, by decide, by decide, by decide⟩)
    rfl _).mp hn
  have hval : (Number.real ⟨false, false, 0, 0, by decide, by decide, by decide⟩).value = 0 := by
    norm_num [Number.value, NormalReal.toRat, NormalReal.absRat]
  rw [← hzero, hval] at hle
  norm_num at hle

theorem ceiling_value {x : Number} (h0 : x.ZeroExponent) :
    ReturnsValue x.toNum.ceiling ⌈x.value⌉ ↔ ¬ (x.Tiny ∧ 0 < x.value) := by
  have integer (hx : x.IsInteger) : ReturnsValue x.toNum.ceiling ⌈x.value⌉ := by
    obtain ⟨y, hy, hval⟩ := ceiling_integer hx h0
    rw [returnsValue_iff hy, hval, hx.value_eq, Int.ceil_intCast]
  cases x with
  | fixnum v hv => exact ⟨fun _ h => h.1, fun _ => integer trivial⟩
  | integer a => exact ⟨fun _ h => h.1, fun _ => integer trivial⟩
  | real r =>
    obtain ⟨s, hs, hiff⟩ := ceiling_real r
    exact (returnsValue_iff (y := .real s) hs _).trans hiff

/-- An integer, or a real against zero. -/
theorem negativeP_number (x : Number) :
    x.toNum.binaryLt (.fixnum 0) = .ok (decide (x.value < 0)) := by
  have hzero : (Number.fixnum 0 (by decide)).value = 0 := Int.cast_zero
  have hcomparable : Comparable [x, .fixnum 0 (by decide)] := by
    cases x with
    | fixnum v hv => exact .inl (by simp [Number.IsInteger])
    | integer a => exact .inl (by simp [Number.IsInteger])
    | real r =>
      obtain ⟨z, hz⟩ := @NormalReal.exists_of_int 0 (by decide)
      refine .inr (List.forall_mem_cons.mpr ⟨⟨r, rfl⟩, List.forall_mem_singleton.mpr ⟨z, ?_⟩⟩)
      rw [hz, hzero, Int.cast_zero]
  have hlt := @arithmeticCmp_eq (fun c h => decide (c < h)) realLtP (· < ·) _ x
    [.fixnum 0 (by decide)] (fun v w => by simp)
    fun a ha b hb => realLtP_value (hcomparable.pair ha hb)
  rw [Num.binaryLt, arithmeticBinaryCmp_eq]
  refine hlt.trans ?_
  simp [hzero]

theorem truncate_value {x : Number} (h0 : x.ZeroExponent) :
    ReturnsValue x.toNum.truncate (if x.value < 0 then ⌈x.value⌉ else ⌊x.value⌋) := by
  rw [Num.truncate, negativeP_number, ok_bind]
  by_cases hneg : x.value < 0
  · rw [if_pos hneg, decide_eq_true hneg, if_pos rfl]
    exact (ceiling_value h0).mpr fun h => absurd h.2 (not_lt.mpr hneg.le)
  · rw [if_neg hneg, decide_eq_false hneg, if_neg (by decide)]
    exact (floor_value h0).mpr fun h => hneg h.2


/-! ## Sums and differences near the reals -/

namespace Bignum

/-- An integer that is not too far away is added as the real it is converted to. -/
theorem realAdd_argument {a s : NormalReal} {b : Bignum} (hb : realArgument b = .ok s.bn)
    (hdiff : a.sig ≠ 0 → s.sig ≠ 0 → |a.exp - s.exp| ≤ beMax) (hnear : ¬ a.FarApart s) :
    realAdd a.bn b = realAdd a.bn s.bn := by
  have hargs : ∀ u : NormalReal, realArgument u.bn = .ok u.bn := fun u => rfl
  have hae : a.bn.exp = a.exp := rfl
  have hse : s.bn.exp = s.exp := rfl
  simp only [realAdd, NormalReal.integer_eq, Bool.false_and, hargs, hb, bind, Except.bind,
    NormalReal.realZeroP_eq, hae, hse, Bool.false_eq_true, if_false]
  by_cases ha : a.sig = 0
  · simp [ha]
  by_cases hs : s.sig = 0
  · simp [ha, hs]
  have hd := abs_le.mp (hdiff ha hs)
  simp only [ha, hs, decide_false, Bool.false_eq_true, if_false]
  rcases lt_trichotomy a.exp s.exp with hlt | heq | hgt
  · have hngt : ¬ a.exp > s.exp := by omega
    simp only [hlt, hngt, if_true, if_false]
    rcases NormalReal.scale_spec hs hlt (by omega) with ⟨habove, -⟩ | ⟨-, w, hrun, -⟩
    · exact absurd ⟨ha, hs, .inr habove⟩ hnear
    · simp only [hrun]
  · simp only [heq, lt_irrefl, if_false]
  · have hnlt : ¬ a.exp < s.exp := by omega
    simp only [hgt, hnlt, if_true, if_false]
    rcases NormalReal.scale_spec ha hgt (by omega) with ⟨habove, -⟩ | ⟨-, w, hrun, -⟩
    · exact absurd ⟨ha, hs, .inl habove⟩ hnear
    · simp only [hrun]

/-- The sum of a real and a number that is converted to one, where there is a real for what is
left of it after 18 digits. -/
theorem realAdd_near {a s y : NormalReal} {b : Bignum} (hb : realArgument b = .ok s.bn)
    (hdiff : a.sig ≠ 0 → s.sig ≠ 0 → |a.exp - s.exp| ≤ beMax) (hnear : ¬ a.FarApart s)
    (hy : y.toRat = Decimal.truncate sigMaxDigits (a.toRat + s.toRat)) :
    ∃ z : NormalReal, realAdd a.bn b = .ok z.bn ∧ z.toRat = y.toRat := by
  rw [realAdd_argument hb hdiff hnear]
  rcases (realAdd_sumOutcome a s hdiff).2 hnear with ⟨z, hz, hv⟩ | ⟨-, hnone⟩
  · exact ⟨z, hz, hv.trans hy.symm⟩
  · exact absurd hy (hnone y)

end Bignum

/-! ## The parts of `round` -/

section Parts

variable {s y : NormalReal} {m : Int}

/-- A real that is an integer has no digits after the point. -/
theorem exp_of_int (hs : s.toRat = m) : 0 ≤ s.exp ∧ s.sig * 10 ^ s.exp.toNat = |m| := by
  have habs : s.absRat = (|m| : Int) := by rw [← s.abs_toRat, hs, Int.cast_abs]
  have hexp : 0 ≤ s.exp := by
    by_contra hneg
    have hlast : s.sig % 10 ≠ 0 := s.canonical.resolve_right fun h => by omega
    obtain ⟨-, he⟩ := @mul_zpow_inj_of_le s.sig |m| s.exp 0 hlast (by omega)
      (by rw [zpow_zero, mul_one]; exact habs)
    omega
  refine ⟨hexp, ?_⟩
  have hshift := mul_zpow_shift (m := s.sig) hexp
  rw [zpow_zero, mul_one, sub_zero] at hshift
  exact_mod_cast hshift.symm.trans habs

theorem digits_of_int (hs : s.toRat = m) (hm : |m| < segLimit) :
    decimalDigits s.sig + s.exp.toNat ≤ 18 := by
  obtain ⟨-, hsig⟩ := exp_of_int hs
  rcases s.sig_range.1.eq_or_lt with h0 | hpos
  · rcases s.canonical with hc | hc
    · exact absurd (h0 ▸ rfl) hc
    · rw [← h0, hc.2]
      decide
  · rw [← decimalDigits_mul_pow hpos, hsig]
    exact (decimalDigits_le_iff (abs_nonneg m)).mpr hm

/-- `inexact->exact` of a real that is an integer of at most 18 digits. -/
theorem inexactToExact_integer (hs : s.toRat = m) (hm : |m| < segLimit) :
    ∃ x : Number, Num.inexactToExact (.bignum s.bn) = .ok x.toNum ∧ x.IsInteger ∧
      x.intValue = m := by
  obtain ⟨hexp, hsig⟩ := exp_of_int hs
  have hdigits := digits_of_int hs hm
  have hone : max 1 (decimalDigits s.sig) + s.exp.toNat ≤ 18 := by
    rcases s.sig_range.1.eq_or_lt with h0 | hpos
    · rcases s.canonical with hc | hc
      · exact absurd (h0 ▸ rfl) hc
      · rw [← h0, hc.2]
        decide
    · have := decimalDigits_pos hpos
      omega
  have he : s.bn.exp = s.exp := rfl
  have hmax : (sigMaxDigits : Int) = 18 := rfl
  have hbe : beMax = 2147483647 := rfl
  obtain ⟨w, hw, hwm⟩ : ∃ w, scaleSignificand s.bn 0 sigMaxDigits = .ok (some w) ∧
      HasMagnitude w |m| := by
    rcases @scaleSignificand_spec s.bn s.sig 0 sigMaxDigits s.hasMagnitude (by decide) hexp
      (by omega) with ⟨hno, -⟩ | ⟨-, w, hw, -, -, hwm⟩
    · omega
    · rw [he, sub_zero, hsig] at hwm
      exact ⟨w, hw, hwm⟩
  have hi : IsInt (if realNegativeP s.bn then negate (copyToInteger w) else copyToInteger w) m := by
    rw [s.realNegativeP_eq, hs]
    by_cases hneg : m < 0
    · have := hwm.isInt.negate
      rw [abs_of_neg hneg, neg_neg] at this
      rwa [decide_eq_true (by exact_mod_cast hneg), if_pos rfl]
    · have := hwm.isInt
      rw [abs_of_nonneg (not_lt.mp hneg)] at this
      rwa [decide_eq_false (by exact_mod_cast hneg), if_neg (by decide)]
  have hrun : Num.inexactToExact (.bignum s.bn) = .ok (toFixnum
      (if realNegativeP s.bn then negate (copyToInteger w) else copyToInteger w)) := by
    show (realToInteger s.bn).map _ = _
    rw [realToInteger, he, if_pos hexp, hw]
    rfl
  rw [hrun, toFixnum_isInt hi]
  by_cases hin : InFixnumRange m
  · rw [if_pos hin]
    exact ⟨.fixnum m hin, rfl, trivial, rfl⟩
  · rw [if_neg hin]
    exact ⟨.integer hi.toNormal, rfl, trivial, hi.toNormal_toInt⟩

theorem oddP_integer {x : Number} (hx : x.IsInteger) :
    x.toNum.oddP = .ok (decide (x.intValue % 2 = 1)) := by
  obtain ⟨r, hr, hcan, hval⟩ := @remainder_gives x (.fixnum 2 (by decide)) hx trivial (by decide)
  have htwo : (Number.fixnum 2 (by decide)).toNum = .fixnum 2 := rfl
  rw [htwo] at hr
  rw [Num.oddP, Num.evenP, hr, ok_bind]
  show Except.ok (!(r.toNum.zeroP)) = _
  rw [zeroP_integer hcan.1, hval]
  have hdvd : x.intValue.tmod 2 = 0 ↔ 2 ∣ x.intValue :=
    ⟨Int.dvd_of_tmod_eq_zero, Int.tmod_eq_zero_of_dvd⟩
  have hiff : x.intValue.tmod 2 = 0 ↔ ¬ x.intValue % 2 = 1 := by
    rw [hdvd]
    omega
  show Except.ok (!decide (x.intValue.tmod 2 = 0)) = _
  simp only [hiff, decide_not, Bool.not_not]

theorem binaryEq_reals (h : y.inexact = s.inexact) :
    Num.binaryEq (.bignum y.bn) (.bignum s.bn) = .ok (decide (y.toRat = s.toRat)) := by
  show cmpChain realEqualP y.bn [s.bn] = _
  rw [cmpChain, realEqualP_normal h, ok_bind]
  by_cases heq : y.toRat = s.toRat <;> simp [heq, cmpChain]

/-- Minus one, as the real it is converted to. -/
def minusOne : NormalReal := ⟨false, true, 0, 1, by decide, one_range, .inl (by decide)⟩

/-- One less than an odd integer. -/
theorem binarySubtract_one (hs : s.toRat = m) (hm : |m| < segLimit) :
    ∃ z : NormalReal, Num.binarySubtract (.bignum s.bn) (.fixnum 1) = .ok (.bignum z.bn) ∧
      z.toRat = (m - 1 : Int) := by
  have hlimit : segLimit = 1000000000000000000 := rfl
  have hbe : beMax = 2147483647 := rfl
  have hmax : sigMaxDigits = 18 := rfl
  have hexp := (exp_of_int hs).1
  have hdigits := digits_of_int hs hm
  have hm' := abs_lt.mp hm
  have hone : minusOne.toRat = -1 := by
    norm_num [minusOne, NormalReal.toRat, NormalReal.absRat]
  have harg : realArgument (negate (integerIntmaxT 1)) = .ok minusOne.bn := by decide
  have hsum : s.toRat + minusOne.toRat = (m - 1 : Int) := by
    rw [hs, hone]
    push_cast
    ring
  have hle : |m - 1| ≤ segLimit := abs_le.mpr (by omega)
  obtain ⟨y, hy⟩ := NormalReal.exists_of_int hle
  have hmexp : minusOne.exp = 0 := rfl
  obtain ⟨z, hz, hzv⟩ := @realAdd_near s minusOne y _ harg
    (fun _ _ => by rw [hmexp, sub_zero, abs_of_nonneg hexp]; exact s.exp_range.2) (by
      rintro ⟨-, -, h | h⟩
      · have := h.2
        omega
      · have := h.1
        omega) (by rw [hy, hsum, truncate_intCast hle])
  refine ⟨z, ?_, hzv.trans hy⟩
  have hrun : bignumPrimitiveSubtract s.bn [integerIntmaxT 1] =
      realAdd s.bn (negate (integerIntmaxT 1)) := by
    show (realSubtract s.bn (integerIntmaxT 1) >>= pure) = _
    rw [bind_pure]
    rfl
  show (bignumPrimitiveSubtract s.bn [integerIntmaxT 1]).map toFixnum = _
  rw [hrun, hz]
  rfl

end Parts

/-! ## The nearest integer -/

/-- The integer nearest to `q`, of two of them the even one. -/
def IsNearestEven (n : Int) (q : ℚ) : Prop :=
  |q - n| < 1 / 2 ∨ |q - n| = 1 / 2 ∧ n % 2 = 0

theorem isNearestEven_iff {q : ℚ} {n m : Int} (hm : ⌊q + 1 / 2⌋ = m) :
    IsNearestEven n q ↔ n = if m % 2 = 1 ∧ q + 1 / 2 = m then m - 1 else m := by
  obtain ⟨hlo, hhi⟩ := Int.floor_eq_iff.mp hm
  -- Only the floor and the integer below it are as near as that.
  have near (h : |q - n| ≤ 1 / 2) : n ≤ m ∧ m - 1 ≤ n := by
    obtain ⟨h1, h2⟩ := abs_le.mp h
    have hle : (n : ℚ) < (m + 1 : Int) := by push_cast; linarith
    have hge : (m : ℚ) ≤ (n + 1 : Int) := by push_cast; linarith
    have hle' : n < m + 1 := by exact_mod_cast hle
    have hge' : m ≤ n + 1 := by exact_mod_cast hge
    omega
  by_cases heq : q + 1 / 2 = m
  · have hq : q = m - 1 / 2 := by linarith
    have hfloor : |q - m| = 1 / 2 := by
      rw [hq, show (m : ℚ) - 1 / 2 - m = -(1 / 2) by ring, abs_neg]
      norm_num
    have hbelow : |q - (m - 1 : Int)| = 1 / 2 := by
      rw [hq]
      push_cast
      rw [show (m : ℚ) - 1 / 2 - (m - 1) = 1 / 2 by ring]
      norm_num
    constructor
    · intro h
      have hn := near (h.elim (fun h => h.le) fun h => h.1.le)
      obtain rfl | rfl : n = m ∨ n = m - 1 := by omega
      · have heven : n % 2 = 0 := h.elim (fun h => absurd hfloor h.ne) fun h => h.2
        rw [if_neg (by omega)]
      · have heven : (m - 1) % 2 = 0 := h.elim (fun h => absurd hbelow h.ne) fun h => h.2
        rw [if_pos ⟨by omega, heq⟩]
    · rintro rfl
      by_cases hodd : m % 2 = 1
      · rw [if_pos ⟨hodd, heq⟩]
        exact .inr ⟨hbelow, by omega⟩
      · rw [if_neg fun h => hodd h.1]
        exact .inr ⟨hfloor, by omega⟩
  · rw [if_neg fun h => heq h.2]
    have hlt : (m : ℚ) < q + 1 / 2 := lt_of_le_of_ne hlo (Ne.symm heq)
    constructor
    · intro h
      have hle : |q - n| ≤ 1 / 2 := h.elim (fun h => h.le) fun h => h.1.le
      have hn := near hle
      have hlow : (m : ℚ) < (n + 1 : Int) := by
        have := (abs_le.mp hle).2
        push_cast
        linarith
      have hlow' : m < n + 1 := by exact_mod_cast hlow
      omega
    · rintro rfl
      exact .inl (abs_lt.mpr ⟨by linarith, by linarith⟩)

/-- The call returns the integer nearest to `q`. -/
def ReturnsNearest (res : Result Num) (q : ℚ) : Prop :=
  ∃ n : Int, ReturnsValue res n ∧ IsNearestEven n q

/-- What `round` does after the sum: an odd integer that the sum itself is becomes even. -/
theorem round_of_sum {x : Num} {y : NormalReal} {m : Int}
    (hadd : Num.binaryAdd (.bignum half.bn) x = .ok (.bignum y.bn)) (hm : ⌊y.toRat⌋ = m)
    (hlt : |m| < segLimit) (hexp : y.exp < -18 → 0 ≤ y.toRat) :
    ∃ z : NormalReal, x.round = .ok (.bignum z.bn) ∧
      z.toRat = (if m % 2 = 1 ∧ y.toRat = m then m - 1 else m : Int) := by
  obtain ⟨s, hs, hsv, hs0⟩ := floor_real y
  have hval : s.toRat = m := by
    rw [← hm]
    exact (tiny_iff (fun h => (hsv h).1) hs0).mpr fun h => absurd (hexp h.1) (not_le.mpr h.2)
  obtain ⟨e, he, hei, hev⟩ := inexactToExact_integer hval hlt
  have hfloor : Num.floor (.bignum y.bn) = .ok (.bignum s.bn) := by
    show (bignumPrimitiveFloor y.bn).map Num.bignum = _
    rw [hs]
    rfl
  rw [Num.round, hadd, ok_bind, hfloor, ok_bind, he, ok_bind, oddP_integer hei, ok_bind, hev]
  by_cases hodd : m % 2 = 1
  · have hnear : -18 ≤ y.exp := by
      by_contra h
      have h0 : m = 0 := by exact_mod_cast hval.symm.trans (hs0 (by omega))
      omega
    rw [decide_eq_true hodd, if_pos rfl, binaryEq_reals (hsv hnear).2.symm, ok_bind, hval]
    by_cases heq : y.toRat = m
    · obtain ⟨z, hz, hzv⟩ := binarySubtract_one hval hlt
      refine ⟨z, ?_, by rw [hzv, if_pos ⟨hodd, heq⟩]⟩
      rw [decide_eq_true heq, if_pos rfl, hz]
    · refine ⟨s, ?_, by rw [hval, if_neg fun h => heq h.2]⟩
      rw [decide_eq_false heq, if_neg (by decide)]
      rfl
  · refine ⟨s, ?_, by rw [hval, if_neg fun h => hodd h.1]⟩
    rw [decide_eq_false hodd, if_neg (by decide)]
    rfl

/-! ## The sum that `round` begins with -/

theorem half_toRat : half.toRat = 1 / 2 := by
  norm_num [half, exactReal, NormalReal.toRat, NormalReal.absRat]

theorem binaryAdd_half (x : Num) :
    Num.binaryAdd (.bignum half.bn) x = (realAdd half.bn x.toBignum).map toFixnum := by
  have hzero : realAdd (integerIntmaxT 0) half.bn = .ok half.bn := by rfl
  show (bignumPrimitiveAdd [half.bn, x.toBignum]).map toFixnum = _
  rw [bignumPrimitiveAdd, List.foldlM_cons, hzero, ok_bind, List.foldlM_cons]
  show (realAdd half.bn x.toBignum >>= pure).map toFixnum = _
  rw [bind_pure]

/-- One half and a real, as one significand. -/
theorem half_add_toRat (s : NormalReal) :
    ∃ m e : Int, min s.exp (-1) = e ∧ 1 / 2 + s.toRat = m * 10 ^ e := by
  rw [s.toRat_eq, ← half_toRat, half.toRat_eq]
  generalize (if realNegativeP s.bn then - s.sig else s.sig) = n
  generalize (if realNegativeP half.bn then - half.sig else half.sig) = k
  have hexp : half.exp = -1 := rfl
  rw [hexp, mul_zpow_shift (min_le_left s.exp (-1)), mul_zpow_shift (min_le_right s.exp (-1))]
  exact ⟨k * 10 ^ (-1 - min s.exp (-1)).toNat + n * 10 ^ (s.exp - min s.exp (-1)).toNat, _, rfl, by
    push_cast
    ring⟩

theorem exists_half_add (s : NormalReal) (hle : |s.toRat| ≤ segLimit) :
    ∃ y : NormalReal, y.toRat = Decimal.truncate sigMaxDigits (half.toRat + s.toRat) := by
  obtain ⟨m, e, he, hsum⟩ := half_add_toRat s
  have hmin := s.exp_range.1
  have hbe : beMin = -2147483648 := rfl
  rw [half_toRat, hsum]
  refine NormalReal.exists_toRat (by omega) ?_
  rw [← hsum]
  obtain ⟨h1, h2⟩ := abs_le.mp hle
  have hlimit : (segLimit : ℚ) = 1000000000000000000 := by norm_num [segLimit]
  rw [hlimit] at h1 h2
  exact abs_le.mpr ⟨by norm_num; linarith, by norm_num; linarith⟩

/-- Neither operand of the sum is too far away. -/
theorem half_near {s : NormalReal} (hexp : -18 ≤ s.exp) (hle : |s.toRat| ≤ segLimit) :
    ¬ half.FarApart s ∧ (s.sig ≠ 0 → s.exp ≤ 20) := by
  have hroom (h0 : s.sig ≠ 0) : decimalDigits s.sig + s.exp ≤ 20 := by
    by_contra hlt
    have hpos : 0 < s.sig := lt_of_le_of_ne s.sig_range.1 (Ne.symm h0)
    have hten : decimalDigits 10 = 2 := by decide
    have := @mul_zpow_lt_of_digits_lt 10 s.sig 18 s.exp (by decide) hpos (by omega)
    rw [s.abs_toRat, NormalReal.absRat] at hle
    have hlimit : (segLimit : ℚ) = 1000000000000000000 := by norm_num [segLimit]
    norm_num at this
    linarith
  have hmax : sigMaxDigits = 18 := rfl
  have hhalf : half.exp = -1 := rfl
  have hfive : decimalDigits half.sig = 1 := by decide
  refine ⟨?_, fun h0 => by have := hroom h0; omega⟩
  rintro ⟨-, h0, h | h⟩
  · have := h.2
    omega
  · have h1 := h.2
    have h2 := hroom h0
    omega

/-- A number that is neither tiny nor large: the sum is cut off after 18 digits. -/
theorem sum_value {x : Number} {s : NormalReal} (hs : realArgument x.toNum.toBignum = .ok s.bn)
    (hexp : -18 ≤ s.exp) (hle : |s.toRat| ≤ segLimit) :
    ∃ y : NormalReal, Num.binaryAdd (.bignum half.bn) x.toNum = .ok (.bignum y.bn) ∧
      y.toRat = Decimal.truncate sigMaxDigits (1 / 2 + s.toRat) := by
  obtain ⟨y, hy⟩ := exists_half_add s hle
  obtain ⟨hnear, hroom⟩ := half_near hexp hle
  have hhalf : half.exp = -1 := rfl
  have hbe : beMax = 2147483647 := rfl
  obtain ⟨z, hz, hzv⟩ := realAdd_near hs (fun _ h0 => by
    have := hroom h0
    rw [hhalf, abs_le]
    omega) hnear hy
  refine ⟨z, ?_, by rw [hzv, hy, half_toRat]⟩
  rw [binaryAdd_half, hz]
  rfl

/-- Cutting off digits of a number that is not negative makes it no larger. -/
theorem truncate_le {q : ℚ} (h : 0 ≤ q) : Decimal.truncate sigMaxDigits q ≤ q := by
  rcases h.eq_or_lt with rfl | hpos
  · simp [Decimal.truncate]
  · have hq : 0 < quantum sigMaxDigits q := by
      unfold quantum
      positivity
    rw [Decimal.truncate, sign_pos hpos, abs_of_pos hpos, SignType.coe_one, one_mul]
    calc (⌊q / quantum sigMaxDigits q⌋ : ℚ) * quantum sigMaxDigits q
        ≤ q / quantum sigMaxDigits q * quantum sigMaxDigits q := by
          gcongr
          exact Int.floor_le _
      _ = q := div_mul_cancel₀ _ hq.ne'

theorem abs_toRat_tiny {r : NormalReal} (h : r.exp < -18) : |r.toRat| < 1 / 10 := by
  have hlt := @NormalReal.absRat_lt r (-19) (by omega)
  rw [r.abs_toRat]
  norm_num at hlt ⊢
  exact hlt

theorem round_tiny {r : NormalReal} (h : r.exp < -18) :
    ReturnsNearest (Num.round (.bignum r.bn)) r.toRat := by
  have habs := abs_toRat_tiny h
  obtain ⟨h1, h2⟩ := abs_lt.mp habs
  have hhalf : half.exp = -1 := rfl
  have hbe : beMax = 2147483647 := rfl
  have hmin := r.exp_range.1
  have hbm : beMin = -2147483648 := rfl
  obtain ⟨hfar, hnear⟩ := realAdd_sumOutcome half r fun _ _ => by
    rw [hhalf, abs_le]
    omega
  obtain ⟨y, hy, hy0, hy1⟩ : ∃ y : NormalReal, realAdd half.bn r.bn = .ok y.bn ∧
      0 ≤ y.toRat ∧ y.toRat < 1 := by
    by_cases hf : half.FarApart r
    · obtain ⟨y, hrun, rfl | rfl, hle, -⟩ := hfar hf
      · exact ⟨half, hrun, by rw [half_toRat]; norm_num, by rw [half_toRat]; norm_num⟩
      · rw [half_toRat, abs_of_pos (by norm_num)] at hle
        linarith
    · have hq : (0 : ℚ) ≤ half.toRat + r.toRat := by
        rw [half_toRat]
        linarith
      rcases hnear hf with ⟨y, hrun, hval⟩ | ⟨-, hnone⟩
      · refine ⟨y, hrun, by rw [hval]; exact truncate_nonneg _ hq, ?_⟩
        rw [hval]
        refine (truncate_le hq).trans_lt ?_
        rw [half_toRat]
        linarith
      · obtain ⟨y, hy⟩ := exists_half_add r (by
          have hlimit : (segLimit : ℚ) = 1000000000000000000 := by norm_num [segLimit]
          rw [hlimit]
          linarith)
        exact absurd hy (hnone y)
  have hfloor : ⌊y.toRat⌋ = 0 := Int.floor_eq_zero_iff.mpr ⟨hy0, hy1⟩
  obtain ⟨z, hz, hzv⟩ := @round_of_sum (.bignum r.bn) y 0 (by
    rw [binaryAdd_half]
    show (realAdd half.bn r.bn).map toFixnum = _
    rw [hy]
    rfl) hfloor (by decide) fun _ => hy0
  refine ⟨0, ⟨.real z, hz, hzv⟩, .inl ?_⟩
  rw [Int.cast_zero, sub_zero]
  linarith

/-! ## Where the sum is exact -/

theorem returnsNearest_iff {x : Num} {z : NormalReal} {n m : Int} {q : ℚ}
    (hz : x.round = .ok (.bignum z.bn)) (hzv : z.toRat = n) (hm : ⌊q + 1 / 2⌋ = m) :
    ReturnsNearest x.round q ↔ n = if m % 2 = 1 ∧ q + 1 / 2 = m then m - 1 else m := by
  rw [← isNearestEven_iff hm]
  constructor
  · rintro ⟨k, hk, hnear⟩
    have hval : z.toRat = k := (@returnsValue_iff _ (.real z) hz k).mp hk
    rwa [show n = k by exact_mod_cast hzv.symm.trans hval]
  · exact fun h => ⟨n, ⟨.real z, hz, hzv⟩, h⟩

/-- A sum with 18 digits, some of them after the point. -/
theorem round_exact {x : Number} {s : NormalReal} {m e : Int}
    (hs : realArgument x.toNum.toBignum = .ok s.bn) (hexp : -18 ≤ s.exp)
    (hle : |s.toRat| ≤ segLimit) (he : -18 ≤ e ∧ e < 0) (hsum : 1 / 2 + s.toRat = m * 10 ^ e)
    (hm : |m| < segLimit) : ReturnsNearest x.toNum.round s.toRat := by
  obtain ⟨y, hadd, hy⟩ := sum_value hs hexp hle
  rw [hsum, truncate_of_abs_lt hm, ← hsum, add_comm] at hy
  have hlimit : segLimit = 1000000000000000000 := rfl
  have hbound : |s.toRat + 1 / 2| ≤ 100000000000000000 := by
    have hpow : (10 : ℚ) ^ e ≤ 10 ^ (-1 : Int) := zpow_le_zpow_right₀ (by norm_num) (by omega)
    have hmq : |(m : ℚ)| ≤ 1000000000000000000 := by
      rw [← Int.cast_abs]
      exact_mod_cast hm.le
    rw [add_comm, hsum, abs_mul, abs_of_pos (by positivity : (0 : ℚ) < 10 ^ e)]
    calc |(m : ℚ)| * 10 ^ e ≤ 1000000000000000000 * 10 ^ (-1 : Int) := by gcongr
      _ = 100000000000000000 := by norm_num
  obtain ⟨h1, h2⟩ := abs_le.mp hbound
  have hfloor : |⌊y.toRat⌋| < segLimit := by
    have hlo := Int.lt_floor_add_one y.toRat
    have hhi := Int.floor_le y.toRat
    rw [hy] at hlo hhi ⊢
    have hlo' : ((-100000000000000000 : Int) : ℚ) < (⌊s.toRat + 1 / 2⌋ + 1 : Int) := by
      push_cast
      linarith
    have hhi' : (⌊s.toRat + 1 / 2⌋ : ℚ) ≤ (100000000000000000 : Int) := by
      push_cast
      linarith
    have hlo'' := Int.cast_lt.mp hlo'
    have hhi'' := Int.cast_le.mp hhi'
    rw [hlimit, abs_lt]
    omega
  obtain ⟨z, hz, hzv⟩ := round_of_sum hadd rfl hfloor fun hlt => by
    by_contra hneg
    have hne : y.sig ≠ 0 := fun h0 => hneg (y.toRat_eq_zero_iff.mpr h0).ge
    have hlast := y.canonical.resolve_right fun h => hne h.1
    have habs : (y.sig : ℚ) * 10 ^ y.exp = (|m| : Int) * 10 ^ e := by
      have hya : y.absRat = |s.toRat + 1 / 2| := by rw [← y.abs_toRat, hy]
      rw [add_comm, hsum, abs_mul, abs_of_pos (by positivity : (0 : ℚ) < 10 ^ e),
        ← Int.cast_abs] at hya
      exact hya
    obtain ⟨-, hee⟩ := mul_zpow_inj_of_le hlast (by omega) habs
    omega
  refine (returnsNearest_iff hz hzv rfl).mpr ?_
  rw [hy]

/-- The last of 19 digits is cut off. -/
theorem truncate_nineteen {m : Int} (h : segLimit ≤ m ∧ m < 10 * segLimit) (e : Int) :
    Decimal.truncate sigMaxDigits ((m : ℚ) * 10 ^ e) = (m / 10 : Int) * 10 ^ (e + 1) := by
  have hlimit : segLimit = 10 ^ 18 := rfl
  have hm : 0 ≤ m := by
    have := segLimit_pos
    omega
  have hdigits : decimalDigits m = 19 := by
    apply le_antisymm
    · rw [decimalDigits_le_iff hm]
      omega
    · exact (lt_decimalDigits_iff hm).mpr (by omega)
  rw [truncate_mul_zpow hm, hdigits]
  norm_num [sigMaxDigits]

/-! ## Integers -/

theorem round_integer {x : Number} {s : NormalReal} {n : Int}
    (hs : realArgument x.toNum.toBignum = .ok s.bn) (hn : s.toRat = n)
    (hlt : - segLimit ≤ n ∧ n < segLimit) :
    ReturnsNearest x.toNum.round s.toRat ↔ (|n| < 100000000000000000 ∨ n % 2 = 0) := by
  have hlimit : segLimit = 1000000000000000000 := rfl
  have hexp : -18 ≤ s.exp := by
    have := (exp_of_int hn).1
    omega
  have hle : |s.toRat| ≤ segLimit := by
    rw [hn, ← Int.cast_abs]
    exact_mod_cast abs_le.mpr ⟨hlt.1, hlt.2.le⟩
  have hsum : 1 / 2 + s.toRat = (10 * n + 5 : Int) * 10 ^ (-1 : Int) := by
    rw [hn]
    push_cast
    rw [zpow_neg_one]
    ring
  by_cases hsmall : |10 * n + 5| < segLimit
  · have hn' := abs_lt.mp hsmall
    refine ⟨fun _ => ?_, fun _ => round_exact hs hexp hle (by decide) hsum hsmall⟩
    rw [abs_lt]
    omega
  obtain ⟨y, hadd, hy⟩ := sum_value hs hexp hle
  rw [hsum] at hy
  -- The sum is an integer of 18 digits: the half is cut off.
  obtain ⟨m, hym, hcases⟩ : ∃ m : Int, y.toRat = m ∧ (0 < n ∧ m = n ∨ n < 0 ∧ m = n + 1) := by
    rcases le_total 0 n with hpos | hneg
    · rw [abs_of_nonneg (by omega)] at hsmall
      rw [truncate_nineteen (by omega), neg_add_cancel, zpow_zero, mul_one] at hy
      exact ⟨_, hy, .inl (by omega)⟩
    · have hneg' : 10 * n + 5 < 0 := by
        rcases lt_or_ge (10 * n + 5) 0 with h | h
        · exact h
        · rw [abs_of_nonneg h] at hsmall
          omega
      rw [abs_of_neg hneg'] at hsmall
      have hflip : ((10 * n + 5 : Int) : ℚ) * 10 ^ (-1 : Int) =
          - (((-(10 * n + 5) : Int) : ℚ) * 10 ^ (-1 : Int)) := by
        push_cast
        ring
      rw [hflip, truncate_neg, truncate_nineteen (by omega), neg_add_cancel, zpow_zero, mul_one] at hy
      refine ⟨- (-(10 * n + 5) / 10), by rw [hy]; push_cast; rfl, .inr (by omega)⟩
  have hfloor : ⌊y.toRat⌋ = m := by rw [hym, Int.floor_intCast]
  obtain ⟨z, hz, hzv⟩ := round_of_sum hadd hfloor (abs_lt.mpr (by
    have := abs_lt.not.mp hsmall
    omega)) fun h => by
      have := (exp_of_int hym).1
      omega
  have hnearest : ⌊s.toRat + 1 / 2⌋ = n := by
    rw [hn, Int.floor_eq_iff]
    constructor <;> linarith
  have hno : ¬ (n % 2 = 1 ∧ s.toRat + 1 / 2 = n) := fun h => by
    have := h.2
    rw [hn] at this
    linarith
  rw [returnsNearest_iff hz hzv hnearest, if_neg hno]
  simp only [hym, and_true]
  have hlarge : ¬ |n| < 100000000000000000 := fun h => by
    have := abs_lt.mp h
    exact hsmall (abs_lt.mpr (by omega))
  simp only [hlarge, false_or]
  split_ifs <;> omega

/-! ## Reals with digits after the point -/

/-- Just above one half: the eighteenth digit after the point is the last, and the sum with one
half has one digit too many. -/
def JustAboveHalf (q : ℚ) : Prop := 1 / 2 < q ∧ q < 1 / 2 + 1 / 100000000000000000

theorem justAboveHalf_iff {n h p : Int} (hp : 0 < p) (hph : p = 2 * h) :
    JustAboveHalf ((n : ℚ) / p) ↔ h < n ∧ (n - h) * 100000000000000000 < p := by
  have hpq : (0 : ℚ) < p := by exact_mod_cast hp
  have hphq : (p : ℚ) = 2 * h := by exact_mod_cast hph
  rw [JustAboveHalf, lt_div_iff₀ hpq, div_lt_iff₀ hpq]
  refine and_congr ⟨fun hlt => ?_, fun hlt => ?_⟩ ⟨fun hlt => ?_, fun hlt => ?_⟩
  · have : (h : ℚ) < n := by linarith
    exact_mod_cast this
  · have : (h : ℚ) < n := by exact_mod_cast hlt
    linarith
  · have : ((n - h) * 100000000000000000 : ℚ) < p := by linarith
    exact_mod_cast this
  · have : ((n - h) * 100000000000000000 : ℚ) < p := by exact_mod_cast hlt
    linarith

/-- A real with digits after the point as a fraction. -/
theorem real_fraction {s : NormalReal} (hexp : -18 ≤ s.exp ∧ s.exp < 0) :
    ∃ n h d : Int, s.toRat = (n : ℚ) / (2 * h : Int) ∧ (10 : ℚ) ^ s.exp = ((2 * h : Int) : ℚ)⁻¹ ∧
      n % 10 ≠ 0 ∧ |n| < segLimit ∧ 5 ≤ h ∧ d * (2 * h) = segLimit ∧
      (d = 1 ∨ d % 2 = 0 ∧ 2 * h ≤ 100000000000000000) := by
  have hlast : s.sig % 10 ≠ 0 := s.canonical.resolve_right fun h => by omega
  obtain ⟨k, hk⟩ : ∃ k : Nat, s.exp = -(k + 1 : Nat) := ⟨(-1 - s.exp).toNat, by omega⟩
  have hk17 : k ≤ 17 := by omega
  have hp : (1 : Int) ≤ 10 ^ k := one_le_pow₀ (by decide)
  have hpow : (2 * (5 * 10 ^ k) : Int) = 10 ^ (k + 1) := by
    rw [pow_succ]
    ring
  have hinv : (10 : ℚ) ^ s.exp = ((2 * (5 * 10 ^ k) : Int) : ℚ)⁻¹ := by
    rw [hk, zpow_neg, zpow_natCast, hpow]
    push_cast
    rfl
  refine ⟨if realNegativeP s.bn then - s.sig else s.sig, 5 * 10 ^ k, 10 ^ (17 - k), ?_, hinv, ?_, ?_,
    by omega, ?_, ?_⟩
  · rw [div_eq_mul_inv, ← hinv]
    exact s.toRat_eq
  · split <;> omega
  · have hrange := s.sig_range
    rw [abs_lt]
    split <;> omega
  · rw [hpow, ← pow_add, show 17 - k + (k + 1) = 18 by omega]
    rfl
  · rcases hk17.eq_or_lt with rfl | hlt
    · exact .inl rfl
    · obtain ⟨j, hj⟩ : ∃ j, 17 - k = j + 1 := ⟨16 - k, by omega⟩
      have hle : (10 : Int) ^ (k + 1) ≤ 10 ^ 17 := pow_le_pow_right₀ (by decide) (by omega)
      rw [hj, pow_succ, hpow]
      omega

theorem round_fraction {x : Number} {s : NormalReal}
    (hs : realArgument x.toNum.toBignum = .ok s.bn) (hexp : -18 ≤ s.exp ∧ s.exp < 0) :
    ReturnsNearest x.toNum.round s.toRat ↔ ¬ JustAboveHalf s.toRat := by
  have hlimit : segLimit = 1000000000000000000 := rfl
  obtain ⟨n, h, d, hval, hinv, hlast, hn, hh, hd, hd1⟩ := real_fraction hexp
  have hn' := abs_lt.mp hn
  have hpq : (0 : ℚ) < (2 * h : Int) := by exact_mod_cast (by omega : 0 < 2 * h)
  have hhq : (5 : ℚ) ≤ h := by exact_mod_cast hh
  have habove := @justAboveHalf_iff n h (2 * h) (by omega) rfl
  rw [← hval] at habove
  have hsum : 1 / 2 + s.toRat = (n + h : Int) * 10 ^ s.exp := by
    rw [hval, hinv]
    push_cast
    field_simp
    ring
  have hle : |s.toRat| ≤ segLimit := by
    have hnq : |(n : ℚ)| ≤ segLimit := by
      rw [← Int.cast_abs]
      exact_mod_cast hn.le
    rw [hval, abs_div, abs_of_pos hpq, div_le_iff₀ hpq]
    have hone : (1 : ℚ) ≤ (2 * h : Int) := by
      push_cast
      linarith
    have hpos : (0 : ℚ) ≤ segLimit := by exact_mod_cast segLimit_pos.le
    exact hnq.trans (le_mul_of_one_le_right hpos hone)
  by_cases hsmall : |n + h| < segLimit
  · refine ⟨fun _ hab => ?_, fun _ => round_exact hs hexp.1 hle hexp hsum hsmall⟩
    -- So near to one half there are 18 digits after the point, and the sum has 19.
    obtain ⟨hlt, hnear⟩ := habove.mp hab
    have := (abs_lt.mp hsmall).2
    rcases hd1 with rfl | ⟨-, hten⟩ <;> omega
  · have hcarry : segLimit ≤ n + h := by
      by_contra hlt
      exact hsmall (abs_lt.mpr (by omega))
    have hd0 : 1 ≤ d := by
      by_contra hneg
      have := mul_nonpos_of_nonpos_of_nonneg (by omega : d ≤ 0) (by omega : 0 ≤ 2 * h)
      omega
    have hroom : 2 * h ≤ segLimit := hd ▸ le_mul_of_one_le_left (by omega) hd0
    obtain ⟨y, hadd, hy⟩ := sum_value hs hexp.1 hle
    have hyv : y.toRat = ((n + h) / 10 * 10 : Int) / (2 * h : Int) := by
      rw [hy, hsum, truncate_nineteen (by omega), zpow_add₀ (by norm_num), hinv, zpow_one]
      push_cast
      field_simp
    have hqv : s.toRat + 1 / 2 = (n + h : Int) / (2 * h : Int) := by
      rw [add_comm, hsum, hinv, div_eq_mul_inv]
    have hten : segLimit ≤ (n + h) / 10 * 10 := by omega
    have hfrac {v : Int} (hlo : segLimit ≤ v) (hhi : v < segLimit + 2 * h) :
        ⌊(v : ℚ) / (2 * h : Int)⌋ = d ∧ ((v : ℚ) / (2 * h : Int) = d ↔ v = segLimit) := by
      rw [← hd] at hlo hhi ⊢
      refine ⟨?_, ?_⟩
      · rw [Int.floor_eq_iff, le_div_iff₀ hpq, div_lt_iff₀ hpq]
        have hhi' : v < (d + 1) * (2 * h) := by linarith
        exact ⟨by exact_mod_cast hlo, by exact_mod_cast hhi'⟩
      · rw [div_eq_iff hpq.ne']
        exact_mod_cast Iff.rfl
    obtain ⟨hyf, hyd⟩ := hfrac hten (by omega)
    obtain ⟨hqf, hqd⟩ := hfrac hcarry (by omega)
    rw [← hyv] at hyf hyd
    rw [← hqv] at hqf hqd
    have hdlt : |d| < segLimit := by
      have := mul_le_mul_of_nonneg_left (by omega : 10 ≤ 2 * h) (by omega : 0 ≤ d)
      rw [abs_of_nonneg (by omega)]
      omega
    have hypos : 0 ≤ y.toRat := by
      rw [hyv]
      exact div_nonneg (by exact_mod_cast (by omega : 0 ≤ (n + h) / 10 * 10)) hpq.le
    obtain ⟨z, hz, hzv⟩ := round_of_sum hadd hyf hdlt fun _ => hypos
    rw [returnsNearest_iff hz hzv hqf, habove]
    simp only [hyd, hqd]
    rcases hd1 with rfl | ⟨heven, hten⟩
    · rw [one_mul] at hd
      split_ifs <;> omega
    · rw [if_neg (by omega), if_neg (by omega)]
      exact ⟨fun _ hab => by omega, fun _ => rfl⟩

/-! ## All numbers -/

/-- `round` has all the digits of the number and of its sum with one half, or the half that is
cut off does not matter. -/
def RoundsWell (q : ℚ) : Prop :=
  (100000000000000000 ≤ |q| → ∃ n : Int, q = (2 * n : Int)) ∧ ¬ JustAboveHalf q

theorem roundsWell_integer (n : Int) :
    RoundsWell n ↔ (|n| < 100000000000000000 ∨ n % 2 = 0) := by
  have hhalf : ¬ JustAboveHalf n := fun h => by
    have h1 : (0 : ℚ) < n := by linarith [h.1]
    have h2 : (n : ℚ) < 1 := h.2.trans (by norm_num)
    have h1' : 0 < n := by exact_mod_cast h1
    have h2' : n < 1 := by exact_mod_cast h2
    omega
  have habs : (100000000000000000 : ℚ) ≤ |(n : ℚ)| ↔ ¬ |n| < 100000000000000000 := by
    rw [← Int.cast_abs, not_lt]
    exact_mod_cast Iff.rfl
  have heven : (∃ k : Int, (n : ℚ) = (2 * k : Int)) ↔ n % 2 = 0 := by
    constructor
    · rintro ⟨k, hk⟩
      have : n = 2 * k := by exact_mod_cast hk
      omega
    · exact fun h => ⟨n / 2, by exact_mod_cast (by omega : n = 2 * (n / 2))⟩
  rw [RoundsWell, and_iff_left hhalf, habs, heven]
  tauto

theorem round_value {x : Number} (hlo : -segLimit ≤ x.value) (hhi : x.value < segLimit) :
    ReturnsNearest x.toNum.round x.value ↔ RoundsWell x.value := by
  have integer {n : Int} (hn : x.value = n) :
      ReturnsNearest x.toNum.round x.value ↔ RoundsWell x.value := by
    rw [hn] at hlo hhi
    have hlt : - segLimit ≤ n ∧ n < segLimit := ⟨by exact_mod_cast hlo, by exact_mod_cast hhi⟩
    obtain ⟨r, hr⟩ := @NormalReal.exists_of_int n (abs_le.mpr ⟨hlt.1, hlt.2.le⟩)
    obtain ⟨s, hs, hsv, -⟩ := Number.RealValued.realArgument ⟨r, hr.trans hn.symm⟩
    have hiff := round_integer hs (hsv.trans hn) hlt
    rw [hsv, hn, ← roundsWell_integer] at hiff
    rw [hn]
    exact hiff
  cases x with
  | fixnum v hv => exact integer rfl
  | integer a => exact integer rfl
  | real r =>
    rcases lt_or_ge r.exp (-18) with htiny | hexp
    · obtain ⟨h1, h2⟩ := abs_lt.mp (abs_toRat_tiny htiny)
      have hwell : RoundsWell r.toRat := by
        refine ⟨fun h => ?_, fun h => ?_⟩
        · have := abs_toRat_tiny htiny
          linarith
        · have := h.1
          linarith
      exact ⟨fun _ => hwell, fun _ => round_tiny htiny⟩
    rcases lt_or_ge r.exp 0 with hneg | hpos
    · have hsmall : |r.toRat| < 100000000000000000 := by
        have hlt := @NormalReal.absRat_lt r (-1) (by omega)
        rw [r.abs_toRat]
        norm_num at hlt
        exact hlt
      refine (@round_fraction (.real r) r rfl ⟨hexp, hneg⟩).trans ?_
      exact ⟨fun h => ⟨fun hlarge => absurd hsmall (not_lt.mpr hlarge), h⟩, fun h => h.2⟩
    · obtain ⟨n, hn⟩ := NormalReal.exists_int hpos
      exact integer hn

/-- **The rounding functions.** -/
theorem rounding_functions (x : Number) (h0 : x.ZeroExponent) :
    (ReturnsValue x.toNum.ceiling ⌈x.value⌉ ↔ ¬ (x.Tiny ∧ 0 < x.value)) ∧
      ReturnsValue x.toNum.truncate (if x.value < 0 then ⌈x.value⌉ else ⌊x.value⌋) ∧
      (-segLimit ≤ x.value → x.value < segLimit →
        (ReturnsNearest x.toNum.round x.value ↔ RoundsWell x.value)) :=
  ⟨ceiling_value h0, truncate_value h0, round_value⟩

/-- 2.5. -/
theorem rounding_functions_fraction :
    ReturnsValue (Num.ceiling (.bignum (exactReal (-1) 25 (by decide) (by decide) (by decide)).bn)) 3 ∧
      ReturnsNearest (Num.round (.bignum (exactReal (-1) 25 (by decide) (by decide) (by decide)).bn))
        (5 / 2) := by
  have hval : (Number.real (exactReal (-1) 25 (by decide) (by decide) (by decide))).value = 5 / 2 := by
    norm_num [Number.value, exactReal, NormalReal.toRat, NormalReal.absRat]
  obtain ⟨hceiling, -, hround⟩ := rounding_functions
    (.real (exactReal (-1) 25 (by decide) (by decide) (by decide))) trivial
  rw [hval] at hceiling hround
  have hthree : ⌈(5 / 2 : ℚ)⌉ = 3 := by norm_num
  rw [hthree] at hceiling
  have hexp : ¬ (-1 : Int) < -18 := by decide
  refine ⟨hceiling.mpr fun h => absurd h.1 hexp, ?_⟩
  refine (hround (by norm_num [segLimit]) (by norm_num [segLimit])).mpr ⟨fun h => ?_, fun h => ?_⟩
  · norm_num at h
  · have := h.2
    norm_num at this

/-- `ceiling` gives zero for 1e-19, and `round` does not give 123456789012345679 for itself, nor 1
for 0.500000000000000001, and raises a condition for 1000000000000000000. -/
theorem rounding_slips :
    Num.ceiling (.bignum (exactReal (-19) 1 (by decide) (by decide) (by decide)).bn) =
        .ok (.bignum ⟨⟨false, true, true, false⟩, 0, [0]⟩) ∧
      ¬ ReturnsNearest (Num.round (.fixnum 123456789012345679)) (123456789012345679 : Int) ∧
      ¬ ReturnsNearest (Num.round (.bignum
          (exactReal (-18) 500000000000000001 (by decide) (by decide) (by decide)).bn))
        (exactReal (-18) 500000000000000001 (by decide) (by decide) (by decide)).toRat ∧
      Num.round (.fixnum 1000000000000000000) =
        .error (.paramValue "remainder" "a" "is not a integer bignum") := by
  refine ⟨by rfl, fun h => ?_, fun h => ?_, by rfl⟩
  · have hwell := (@round_value (.fixnum 123456789012345679 (by decide))
      (by norm_num [segLimit, Number.value]) (by norm_num [segLimit, Number.value])).mp h
    exact absurd ((roundsWell_integer 123456789012345679).mp hwell) (by decide)
  · have hval : (exactReal (-18) 500000000000000001 (by decide) (by decide) (by decide)).toRat =
        500000000000000001 / 1000000000000000000 := by
      norm_num [exactReal, NormalReal.toRat, NormalReal.absRat]
    have hwell := (@round_value
      (.real (exactReal (-18) 500000000000000001 (by decide) (by decide) (by decide)))
      (by rw [Number.value, hval]; norm_num [segLimit])
      (by rw [Number.value, hval]; norm_num [segLimit])).mp h
    refine hwell.2 ?_
    rw [Number.value, hval]
    exact ⟨by norm_num, by norm_num⟩

end Idio
