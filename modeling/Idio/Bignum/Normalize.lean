/-
  Bignum/Normalize.lean --- real bignums and their normal form.

  A real bignum is a magnitude, a sign flag and an `int32_t` exponent.  `normalize`
  brings it to normal form: at most 18 digits, no trailing zero, exponent zero for
  zero.  It drops the digits beyond 18, which loses precision, and raises
  `exponent overflow` when the exponent has no room for what it drops.

  `NormalReal` is a real in normal form.  `normalize_outcome` says what `normalize`
  does in those terms: it returns the normal real whose value is the truncated
  value of its argument, and raises exactly when there is none.
-/
import Idio.Bignum.Multiply

set_option autoImplicit false

namespace Idio

namespace Bignum

open Decimal Positional WhileLoop

/-! ## Significands -/

/-- The significand of `bn` is a magnitude and stands for `n`. -/
structure HasMagnitude (bn : Bignum) (n : Int) : Prop where
  magnitude : Magnitude bn.sig
  toInt_eq : toInt bn.sig = n

theorem HasMagnitude.nonneg {bn : Bignum} {n : Int} (h : HasMagnitude bn n) : 0 ≤ n :=
  h.toInt_eq ▸ h.magnitude.toInt_nonneg

theorem HasMagnitude.isInt {bn : Bignum} {n : Int} (h : HasMagnitude bn n) :
    IsInt (copyToInteger bn) n :=
  ⟨rfl, h.magnitude.normal, h.toInt_eq⟩

theorem IsInt.hasMagnitude {bn : Bignum} {n : Int} (h : IsInt bn n) (hn : 0 ≤ n) :
    HasMagnitude bn n :=
  ⟨h.magnitude hn, h.toInt_eq⟩

theorem HasMagnitude.zeroP_eq {bn : Bignum} {n : Int} (h : HasMagnitude bn n) :
    zeroP bn = decide (n = 0) := h.isInt.zeroP_eq

theorem HasMagnitude.shiftLeft {bn : Bignum} {n : Int} (h : HasMagnitude bn n) :
    ∃ r, shiftLeft bn 0 = .ok r ∧ HasMagnitude r (n * 10) := by
  have hn := h.nonneg
  obtain ⟨r, hr, hi⟩ := shiftLeft_isInt h.isInt hn (by decide : (0 : Int) ≤ 0 ∧ (0 : Int) < 10)
  rw [add_zero, mul_comm] at hi
  exact ⟨r, hr, hi.hasMagnitude (by omega)⟩

theorem HasMagnitude.shiftRight {bn : Bignum} {n : Int} (h : HasMagnitude bn n) :
    HasMagnitude (shiftRight bn).1 (n / 10) ∧
      zeroP (shiftRight bn).2 = decide (n % 10 = 0) := by
  have hn := h.nonneg
  obtain ⟨hq, -, hr⟩ := shiftRight_isInt h.isInt hn
  exact ⟨hq.hasMagnitude (by omega), hr.zeroP_eq⟩

/-- A magnitude below the segment limit is one segment. -/
theorem HasMagnitude.sig_eq {bn : Bignum} {n : Int} (h : HasMagnitude bn n)
    (hlt : n < segLimit) : bn.sig = [n] :=
  h.magnitude.toInt_inj (magnitude_small h.nonneg hlt) (by rw [h.toInt_eq, toInt_small h.nonneg])

theorem hasMagnitude_small {bn : Bignum} {n : Int} (hs : bn.sig = [n]) (h0 : 0 ≤ n)
    (hlt : n < segLimit) : HasMagnitude bn n :=
  ⟨hs ▸ magnitude_small h0 hlt, by rw [hs, toInt_small h0]⟩

/-! ## Counting digits -/

/-- `while (v) { v /= 10; d++; }`; a word has at most 64 bits. -/
def countLoop : Nat → Int → Nat
  | 0, _ => 0
  | fuel + 1, v => if v = 0 then 0 else countLoop fuel (v.tdiv 10) + 1

/-- `idio_bignum_count_digits`. -/
def countDigits (sig : Bsa) : Nat :=
  let d := countLoop 64 (bsaTop sig)
  (if d = 0 then 1 else d) + (sig.length - 1) * dpw

theorem countLoop_eq {fuel : Nat} {v : Int} (h0 : 0 ≤ v) (hlt : v < 10 ^ fuel) :
    countLoop fuel v = decimalDigits v := by
  induction fuel generalizing v with
  | zero =>
    have : v = 0 := by rw [pow_zero] at hlt; omega
    rw [this]
    rfl
  | succ n ih =>
    rw [countLoop]
    split
    · rename_i hz
      rw [hz, decimalDigits_zero]
    · have hpos : 0 < v := by omega
      rw [pow_succ] at hlt
      rw [Int.tdiv_eq_ediv_of_nonneg h0, ih (by omega) (by omega), ← decimalDigits_succ hpos]

theorem segLimit_pow (n : Nat) : segLimit ^ n = 10 ^ (dpw * n) := by
  rw [pow_mul, ← segLimit_eq]

/-- The digit count of a magnitude; zero counts as one digit. -/
theorem HasMagnitude.countDigits_eq {bn : Bignum} {n : Int} (h : HasMagnitude bn n) :
    countDigits bn.sig = max 1 (decimalDigits n) := by
  obtain ⟨lo, t, hs, hlo, ht, hlead⟩ := h.magnitude.split
  have hn := h.toInt_eq
  rw [h.magnitude.toInt_eq, hs, value_append, value_cons, value_nil, mul_zero, add_zero,
    mul_comm, segLimit_pow] at hn
  have hlt : t < 10 ^ 64 := lt_trans ht.2 (by decide)
  unfold countDigits
  rw [hs, bsaTop_append, countLoop_eq ht.1 hlt, List.length_append, List.length_singleton,
    Nat.add_sub_cancel]
  by_cases h0 : t = 0
  · have hnil : lo = [] := by
      by_contra hne
      exact hlead hne h0
    subst hnil h0
    rw [← hn]
    decide
  · have hpos : 0 < t := by omega
    have hv := value_lt_pow hlo
    rw [segLimit_pow] at hv
    have hd := decimalDigits_pos hpos
    rw [← hn, decimalDigits_add_mul_pow (value_nonneg (by decide) hlo) hv hpos]
    have hne : decimalDigits t ≠ 0 := by omega
    have hmul : lo.length * dpw = dpw * lo.length := Nat.mul_comm _ _
    simp only [hne, if_false]
    omega

/-! ## Machine exponents -/

/-- The value of an `int32_t` computation, which wraps round. -/
def wrap32 (i : Int) : Int := (i + 2147483648) % 4294967296 - 2147483648

theorem wrap32_of_mem {i : Int} (hlo : beMin ≤ i) (hhi : i ≤ beMax) : wrap32 i = i := by
  simp only [beMin, beMax, wrap32] at *
  omega

/-! ## Scaling -/

/-- The body of the loop of `idio_bignum_scale_significand`. -/
def scaleStep (st : Bignum × Int) : Result (Bignum × Int) := do
  let bnc ← shiftLeft st.1 0
  if st.2 = beMin then .error (.bignumConversionError "exponent underflow")
  else .ok (bnc, st.2 - 1)

/-- `idio_bignum_scale_significand`; `none` is `#n`, that there is no room to scale
within `maxDigits`. -/
def scaleSignificand (bn : Bignum) (desiredExp maxDigits : Int) : Result (Option Bignum) :=
  if maxDigits - countDigits bn.sig < wrap32 (bn.exp - desiredExp) then .ok none
  else do
    let st ← whileLoop .diverges (fun st => decide (st.2 > desiredExp)) scaleStep
      ((bn.exp - desiredExp).toNat + 1) (bn, bn.exp)
    pure (some (real bn.flags st.2 st.1.sig))

theorem scaleStep_inv {n e f : Int} (hf : beMin ≤ f) {st : Bignum × Int}
    (h : f ≤ st.2 ∧ st.2 ≤ e ∧ HasMagnitude st.1 (n * 10 ^ (e - st.2).toNat))
    (hc : decide (st.2 > f) = true) :
    ∃ st', scaleStep st = .ok st' ∧
      (f ≤ st'.2 ∧ st'.2 ≤ e ∧ HasMagnitude st'.1 (n * 10 ^ (e - st'.2).toNat)) ∧
      (st'.2 - f).toNat < (st.2 - f).toNat := by
  obtain ⟨hle, hge, hm⟩ := h
  have hgt : f < st.2 := by simpa using hc
  obtain ⟨bnc, hrun, hmag⟩ := hm.shiftLeft
  have hexp : (e - (st.2 - 1)).toNat = (e - st.2).toNat + 1 := by omega
  refine ⟨(bnc, st.2 - 1), ?_, ⟨?_, ?_, ?_⟩, ?_⟩
  · have hne : st.2 ≠ beMin := by omega
    simp [scaleStep, hrun, hne, bind, Except.bind]
  · show f ≤ st.2 - 1
    omega
  · show st.2 - 1 ≤ e
    omega
  · rw [hexp, pow_succ, ← mul_assoc]
    exact hmag
  · show (st.2 - 1 - f).toNat < (st.2 - f).toNat
    omega

/-- Scaling to an exponent that the `int32_t` difference can reach. -/
theorem scaleSignificand_spec {bn : Bignum} {n f k : Int} (h : HasMagnitude bn n)
    (hf : beMin ≤ f) (hle : f ≤ bn.exp) (hdiff : bn.exp - f ≤ beMax) :
    (k - max 1 (decimalDigits n) < bn.exp - f ∧ scaleSignificand bn f k = .ok none) ∨
      (bn.exp - f ≤ k - max 1 (decimalDigits n) ∧
        ∃ r, scaleSignificand bn f k = .ok (some r) ∧ r.exp = f ∧
          r.flags = { bn.flags with integer := false, real := true } ∧
          HasMagnitude r (n * 10 ^ (bn.exp - f).toNat)) := by
  have hwrap : wrap32 (bn.exp - f) = bn.exp - f := wrap32_of_mem (by simp only [beMin]; omega) hdiff
  have hcount : ((countDigits bn.sig : Nat) : Int) = max 1 (decimalDigits n) := by
    rw [h.countDigits_eq]
  unfold scaleSignificand
  rw [hwrap, hcount]
  split
  · rename_i hlt
    exact Or.inl ⟨hlt, rfl⟩
  · rename_i hge
    refine Or.inr ⟨by omega, ?_⟩
    obtain ⟨st, hrun, ⟨hfst, -, hm⟩, hstop⟩ :=
      @whileLoop_total _ _ Fault.diverges (fun st => decide (st.2 > f)) scaleStep
        (fun st => f ≤ st.2 ∧ st.2 ≤ bn.exp ∧ HasMagnitude st.1 (n * 10 ^ (bn.exp - st.2).toNat))
        (fun st => (st.2 - f).toNat) (fun st h hc => scaleStep_inv hf h hc)
        ((bn.exp - f).toNat + 1) (bn, bn.exp)
        ⟨hle, le_refl _, by simpa using h⟩ (by simp only; omega)
    have hend : st.2 = f := by
      have : st.2 ≤ f := by simpa using hstop
      omega
    refine ⟨real bn.flags st.2 st.1.sig, by rw [hrun]; rfl, hend, rfl, ?_⟩
    rw [hend] at hm
    exact ⟨hm.magnitude, hm.toInt_eq⟩

/-! ## Normalisation -/

/-- The variables of the first loop of `idio_bignum_normalize`. -/
structure NormalizeState where
  bnS : Bignum
  exp : Int
  digits : Nat

/-- The condition raised when an exponent leaves the `int32_t` range upwards. -/
def exponentOverflow : Fault := .bignumConversionError "exponent overflow"

/-- The body of the first loop: drop a digit beyond `sigMaxDigits`. -/
def dropDigitStep (st : NormalizeState) : Result NormalizeState :=
  if st.exp = beMax then .error exponentOverflow
  else .ok ⟨(shiftRight st.bnS).1, st.exp + 1, st.digits - 1⟩

/-- The body of the second loop: drop a trailing zero. -/
def dropZeroStep (st : Bignum × Int) : Result (Bignum × Int) :=
  if st.2 = beMax then .error exponentOverflow
  else .ok ((shiftRight st.1).1, st.2 + 1)

/-- `while (! zero_p (bn_s))` with the `break` at a last digit other than zero. -/
def trailingZeroP (st : Bignum × Int) : Bool := !zeroP st.1 && zeroP (shiftRight st.1).2

/-- `idio_bignum_normalize`. -/
def normalize (bn : Bignum) : Result Bignum := do
  let digits := countDigits bn.sig
  let st ← whileLoop .diverges (fun st => decide (st.digits > sigMaxDigits)) dropDigitStep
    (digits + 1) ⟨bn, bn.exp, digits⟩
  let st' ← whileLoop .diverges trailingZeroP dropZeroStep
    (dpw * st.bnS.sig.length + 1) (st.bnS, st.exp)
  pure (real bn.flags (if zeroP st'.1 then 0 else st'.2) st'.1.sig)

/-- The first loop drops the digits beyond `sigMaxDigits`, as long as the exponent
has room for them. -/
theorem dropDigits_spec {bn : Bignum} {m : Int} (h : HasMagnitude bn m) (hm : 0 < m)
    (hexp : bn.exp ≤ beMax) :
    (bn.exp + (decimalDigits m - sigMaxDigits : Nat) ≤ beMax ∧
      ∃ st, whileLoop .diverges (fun st => decide (st.digits > sigMaxDigits)) dropDigitStep
          (countDigits bn.sig + 1) ⟨bn, bn.exp, countDigits bn.sig⟩ = .ok st ∧
        HasMagnitude st.bnS (m / 10 ^ (decimalDigits m - sigMaxDigits)) ∧
        st.exp = bn.exp + (decimalDigits m - sigMaxDigits : Nat)) ∨
      (beMax < bn.exp + (decimalDigits m - sigMaxDigits : Nat) ∧
        whileLoop .diverges (fun st => decide (st.digits > sigMaxDigits)) dropDigitStep
          (countDigits bn.sig + 1) ⟨bn, bn.exp, countDigits bn.sig⟩ =
            .error exponentOverflow) := by
  have hpos := decimalDigits_pos hm
  have hcount : countDigits bn.sig = decimalDigits m := by
    rw [h.countDigits_eq]
    omega
  generalize hk : decimalDigits m - sigMaxDigits = k
  rw [hcount]
  -- `j` digits have been dropped so far.
  let Inv : NormalizeState → Prop := fun st =>
    ∃ j : Nat, j ≤ k ∧ HasMagnitude st.bnS (m / 10 ^ j) ∧ st.exp = bn.exp + j ∧
      st.digits + j = decimalDigits m ∧ st.exp ≤ beMax
  let Raises : Fault → Prop := fun e => e = exponentOverflow ∧ beMax < bn.exp + k
  have step : ∀ st, Inv st → decide (st.digits > sigMaxDigits) = true →
      (∃ st', dropDigitStep st = .ok st' ∧ Inv st' ∧ st'.digits < st.digits) ∨
        (∃ e, dropDigitStep st = .error e ∧ Raises e) := by
    rintro st ⟨j, hj, hmag, he, hd, hmax⟩ hc
    have hgt : st.digits > sigMaxDigits := by simpa using hc
    unfold dropDigitStep
    split
    · exact Or.inr ⟨_, rfl, rfl, by omega⟩
    · refine Or.inl ⟨_, rfl, ⟨j + 1, by omega, ?_, ?_, ?_, ?_⟩, ?_⟩
      · have := hmag.shiftRight.1
        rwa [Int.ediv_ediv_of_nonneg (by positivity), ← pow_succ] at this
      · simp only [he]
        push_cast
        ring
      · show st.digits - 1 + (j + 1) = decimalDigits m
        omega
      · show st.exp + 1 ≤ beMax
        omega
      · show st.digits - 1 < st.digits
        omega
  have hinit : Inv ⟨bn, bn.exp, decimalDigits m⟩ :=
    ⟨0, by omega, by simpa using h, by simp, rfl, hexp⟩
  have hends := @whileLoop_outcome _ _ Fault.diverges
    (fun st => decide (st.digits > sigMaxDigits)) dropDigitStep Inv Raises (fun st => st.digits)
    step (decimalDigits m + 1) ⟨bn, bn.exp, decimalDigits m⟩ hinit (Nat.lt_succ_self _)
  generalize whileLoop Fault.diverges (fun st : NormalizeState => decide (st.digits > sigMaxDigits))
    dropDigitStep (decimalDigits m + 1) ⟨bn, bn.exp, decimalDigits m⟩ = run at hends ⊢
  cases run with
  | error e =>
    obtain ⟨rfl, hover⟩ := hends
    exact Or.inr ⟨hover, rfl⟩
  | ok st =>
    obtain ⟨⟨j, hj, hmag, he, hd, hmax⟩, hstop⟩ := hends
    have hle : st.digits ≤ sigMaxDigits := by simpa using hstop
    have hjk : j = k := by omega
    subst hjk
    exact Or.inl ⟨by omega, st, rfl, hmag, he⟩

/-- The second loop strips the trailing zeros, as long as the exponent has room
for them. -/
theorem dropZeros_spec {bnS : Bignum} {e d : Int} {t : Nat} (h : HasMagnitude bnS (d * 10 ^ t))
    (hd : 0 < d) (hlast : d % 10 ≠ 0) (hexp : e ≤ beMax) :
    (e + t ≤ beMax ∧
      ∃ st, whileLoop .diverges trailingZeroP dropZeroStep (dpw * bnS.sig.length + 1) (bnS, e) =
          .ok st ∧ HasMagnitude st.1 d ∧ st.2 = e + t) ∨
      (beMax < e + t ∧
        whileLoop .diverges trailingZeroP dropZeroStep (dpw * bnS.sig.length + 1) (bnS, e) =
          .error exponentOverflow) := by
  -- `j` zeros have been stripped so far.
  let Inv : Bignum × Int → Prop := fun st =>
    ∃ j i : Nat, j + i = t ∧ HasMagnitude st.1 (d * 10 ^ i) ∧ st.2 = e + j ∧ st.2 ≤ beMax
  let Raises : Fault → Prop := fun err => err = exponentOverflow ∧ beMax < e + t
  have hcond : ∀ {st : Bignum × Int} {i : Nat}, HasMagnitude st.1 (d * 10 ^ i) →
      trailingZeroP st = decide (0 < i) := by
    intro st i hmag
    have hne : d * 10 ^ i ≠ 0 := by positivity
    rw [trailingZeroP, hmag.zeroP_eq, hmag.shiftRight.2]
    cases i with
    | zero => simp [hlast]
    | succ i =>
      have : d * 10 ^ (i + 1) % 10 = 0 := by
        rw [pow_succ, ← mul_assoc]
        exact Int.mul_emod_left _ _
      simp [hne, this]
  have step : ∀ st, Inv st → trailingZeroP st = true →
      (∃ st', dropZeroStep st = .ok st' ∧ Inv st' ∧
        decimalDigits (toInt st'.1.sig) < decimalDigits (toInt st.1.sig)) ∨
        (∃ err, dropZeroStep st = .error err ∧ Raises err) := by
    rintro st ⟨j, i, hji, hmag, he, hmax⟩ hc
    have hi : 0 < i := by simpa [hcond hmag] using hc
    obtain ⟨i, rfl⟩ : ∃ m, i = m + 1 := ⟨i - 1, by omega⟩
    unfold dropZeroStep
    split
    · exact Or.inr ⟨_, rfl, rfl, by omega⟩
    · have hdiv : d * 10 ^ (i + 1) / 10 = d * 10 ^ i := by
        rw [pow_succ, ← mul_assoc, Int.mul_ediv_cancel _ (by decide)]
      have hshift := hmag.shiftRight.1
      refine Or.inl ⟨_, rfl, ⟨j + 1, i, by omega, hdiv ▸ hshift, ?_, ?_⟩, ?_⟩
      · simp only [he]
        push_cast
        ring
      · show st.2 + 1 ≤ beMax
        omega
      · rw [hshift.toInt_eq, hmag.toInt_eq]
        exact decimalDigits_div_ten (by positivity)
  have hfuel : decimalDigits (toInt bnS.sig) < dpw * bnS.sig.length + 1 := by
    have := decimalDigits_value_le h.magnitude.digits
    rw [h.magnitude.toInt_eq]
    omega
  have hends := @whileLoop_outcome _ _ Fault.diverges trailingZeroP dropZeroStep Inv Raises
    (fun st => decimalDigits (toInt st.1.sig)) step (dpw * bnS.sig.length + 1) (bnS, e)
    ⟨0, t, by omega, h, by simp, hexp⟩ hfuel
  generalize whileLoop Fault.diverges trailingZeroP dropZeroStep (dpw * bnS.sig.length + 1)
    (bnS, e) = run at hends ⊢
  cases run with
  | error err =>
    obtain ⟨rfl, hover⟩ := hends
    exact Or.inr ⟨hover, rfl⟩
  | ok st =>
    obtain ⟨⟨j, i, hji, hmag, he, hmax⟩, hstop⟩ := hends
    have hi : i = 0 := by simpa [hcond hmag] using hstop
    subst hi
    exact Or.inl ⟨by omega, st, rfl, by simpa using hmag, by omega⟩

/-- `idio_bignum_normalize` on zero. -/
theorem normalize_zero {bn : Bignum} (h : HasMagnitude bn 0) :
    normalize bn = .ok (real bn.flags 0 [0]) := by
  have hcount : countDigits bn.sig = 1 := by rw [h.countDigits_eq]; decide
  have hzero : zeroP bn = true := by simp [h.zeroP_eq]
  have hsig : bn.sig = [0] := h.sig_eq (by decide)
  simp only [normalize, hcount]
  rw [whileLoop_of_false _ (by simp [sigMaxDigits])]
  simp only [bind, Except.bind]
  rw [whileLoop_of_false _ (by simp [trailingZeroP, hzero])]
  simp [hzero, hsig, pure, Except.pure]

/-- What is left after dropping and stripping digits fits one segment. -/
theorem stripped_lt {m d : Int} {t : Nat} (hm : 0 < m) (hd : 0 < d)
    (hdt : m / 10 ^ (decimalDigits m - sigMaxDigits) = d * 10 ^ t) : d < segLimit := by
  have hle := decimalDigits_div_pow_le m sigMaxDigits hm.le
  rw [hdt, decimalDigits_mul_pow hd] at hle
  rw [segLimit_eq, ← decimalDigits_le_iff hd.le]
  exact le_trans (Nat.le_add_right _ _) hle

/-- `idio_bignum_normalize` on a magnitude other than zero: drop the digits beyond
`sigMaxDigits`, strip the trailing zeros, and count both in the exponent. -/
theorem normalize_pos {bn : Bignum} {m d : Int} {t : Nat} (h : HasMagnitude bn m)
    (hm : 0 < m) (hexp : bn.exp ≤ beMax) (hd : 0 < d) (hlast : d % 10 ≠ 0)
    (hdt : m / 10 ^ (decimalDigits m - sigMaxDigits) = d * 10 ^ t) :
    normalize bn =
      if bn.exp + (decimalDigits m - sigMaxDigits : Nat) + t ≤ beMax then
        .ok (real bn.flags (bn.exp + (decimalDigits m - sigMaxDigits : Nat) + t) [d])
      else .error exponentOverflow := by
  have hlimit : d < segLimit := stripped_lt hm hd hdt
  unfold normalize
  rcases dropDigits_spec h hm hexp with ⟨hroom, st, hrun, hmag, he⟩ | ⟨hover, hrun⟩
  · simp only [hrun, bind, Except.bind]
    rw [hdt] at hmag
    rcases dropZeros_spec hmag hd hlast (he ▸ hroom) with ⟨hroom', st', hrun', hmag', he'⟩ |
      ⟨hover', hrun'⟩
    · have hnz : zeroP st'.1 = false := by simp [hmag'.zeroP_eq, hd.ne']
      rw [hrun', if_pos (by omega)]
      simp [hnz, hmag'.sig_eq hlimit, he', he, pure, Except.pure]
    · rw [hrun', if_neg (by omega)]
  · simp only [hrun, bind, Except.bind]
    rw [if_neg (by omega)]

/-! ## Reals in normal form -/

/-- A real bignum in normal form: at most 18 digits, no trailing zero, an
`int32_t` exponent that is zero for zero. -/
structure NormalReal where
  inexact : Bool
  negative : Bool
  exp : Int
  sig : Int
  exp_range : beMin ≤ exp ∧ exp ≤ beMax
  sig_range : 0 ≤ sig ∧ sig < segLimit
  canonical : sig % 10 ≠ 0 ∨ (sig = 0 ∧ exp = 0)

/-- The bignum object of a normal real. -/
def NormalReal.bn (r : NormalReal) : Bignum :=
  ⟨⟨false, true, r.negative, r.inexact⟩, r.exp, [r.sig]⟩

/-- The absolute value of a normal real. -/
def NormalReal.absRat (r : NormalReal) : ℚ := r.sig * 10 ^ r.exp

/-- The number a normal real stands for. -/
def NormalReal.toRat (r : NormalReal) : ℚ := if r.negative then - r.absRat else r.absRat

theorem NormalReal.hasMagnitude (r : NormalReal) : HasMagnitude r.bn r.sig :=
  hasMagnitude_small rfl r.sig_range.1 r.sig_range.2

theorem NormalReal.digits_le (r : NormalReal) : decimalDigits r.sig ≤ sigMaxDigits :=
  (decimalDigits_le_iff r.sig_range.1).mpr r.sig_range.2

theorem NormalReal.absRat_nonneg (r : NormalReal) : 0 ≤ r.absRat := by
  have : (0 : ℚ) ≤ r.sig := by exact_mod_cast r.sig_range.1
  unfold NormalReal.absRat
  positivity

theorem NormalReal.absRat_eq_zero_iff (r : NormalReal) : r.absRat = 0 ↔ r.sig = 0 := by
  have : (10 : ℚ) ^ r.exp ≠ 0 := by positivity
  unfold NormalReal.absRat
  rw [mul_eq_zero, or_iff_left this]
  exact_mod_cast Iff.rfl

theorem NormalReal.toRat_eq_zero_iff (r : NormalReal) : r.toRat = 0 ↔ r.sig = 0 := by
  rw [← r.absRat_eq_zero_iff]
  unfold NormalReal.toRat
  split <;> simp

/-- The absolute value determines significand and exponent. -/
theorem NormalReal.absRat_inj {r s : NormalReal} (h : r.absRat = s.absRat) :
    r.sig = s.sig ∧ r.exp = s.exp := canonical_inj r.canonical s.canonical h

/-- The truncated value of a magnitude other than zero, in normal form. -/
theorem truncate_canonical {m : Int} (hm : 0 < m) (e : Int) :
    ∃ (d : Int) (t : Nat), m / 10 ^ (decimalDigits m - sigMaxDigits) = d * 10 ^ t ∧ 0 < d ∧
      d % 10 ≠ 0 ∧ truncate sigMaxDigits ((m : ℚ) * 10 ^ e) =
        d * 10 ^ (e + (decimalDigits m - sigMaxDigits : Nat) + t) := by
  have hq : 0 < m / 10 ^ (decimalDigits m - sigMaxDigits) := by
    have hlt : decimalDigits m - sigMaxDigits < decimalDigits m := by
      have := decimalDigits_pos hm
      simp only [sigMaxDigits]
      omega
    have hlow := (lt_decimalDigits_iff hm.le).mp hlt
    exact (Int.le_ediv_iff_mul_le (by positivity)).mpr (by rwa [zero_add, one_mul])
  obtain ⟨d, t, hdt, hd, hlast⟩ := exists_mul_pow hq
  refine ⟨d, t, hdt, hd, hlast, ?_⟩
  rw [truncate_mul_zpow hm.le, hdt]
  push_cast
  rw [zpow_add₀ (by norm_num) _ (t : Int), zpow_natCast]
  ring

/-- The normal form determines the exponent. -/
theorem NormalReal.exp_eq {r : NormalReal} {d e : Int} (hd : 0 < d) (hlast : d % 10 ≠ 0)
    (h : r.absRat = d * 10 ^ e) : r.exp = e := by
  have hne : r.sig ≠ 0 := by
    rw [ne_eq, ← r.absRat_eq_zero_iff, h]
    have : (d : ℚ) ≠ 0 := by exact_mod_cast hd.ne'
    positivity
  have hcan := r.canonical.resolve_right (fun hc => hne hc.1)
  exact (mul_zpow_inj hcan hlast h).2

/-- There is no normal real for a magnitude with an exponent that is too large. -/
theorem NormalReal.absRat_ne {m e : Int} (hm : 0 < m) (he : beMax < e) (r : NormalReal) :
    r.absRat ≠ truncate sigMaxDigits ((m : ℚ) * 10 ^ e) := by
  obtain ⟨d, t, -, hd, hlast, hvalue⟩ := truncate_canonical hm e
  intro h
  rw [hvalue] at h
  have hexp := r.exp_range.2
  rw [NormalReal.exp_eq hd hlast h] at hexp
  omega

/-- **What `idio_bignum_normalize` does.**  It returns the normal real whose value
is the value of its argument truncated to 18 significant digits, with the flags
of its argument; it raises `exponent overflow` exactly when there is no such
normal real. -/
theorem normalize_outcome {bn : Bignum} {m : Int} (h : HasMagnitude bn m)
    (hexp : beMin ≤ bn.exp ∧ bn.exp ≤ beMax) :
    (∃ r : NormalReal, normalize bn = .ok r.bn ∧ r.negative = bn.flags.realNegative ∧
        r.inexact = bn.flags.realInexact ∧
        r.absRat = truncate sigMaxDigits ((m : ℚ) * 10 ^ bn.exp)) ∨
      (normalize bn = .error exponentOverflow ∧
        ∀ r : NormalReal, r.absRat ≠ truncate sigMaxDigits ((m : ℚ) * 10 ^ bn.exp)) := by
  rcases h.nonneg.eq_or_lt with rfl | hm
  · refine Or.inl ⟨⟨bn.flags.realInexact, bn.flags.realNegative, 0, 0, by decide, by decide,
      by decide⟩, normalize_zero h, rfl, rfl, ?_⟩
    simp [NormalReal.absRat, truncate]
  · obtain ⟨d, t, hdt, hd, hlast, hvalue⟩ := truncate_canonical hm bn.exp
    have hlimit : d < segLimit := stripped_lt hm hd hdt
    have hrun := normalize_pos h hm hexp.2 hd hlast hdt
    by_cases hroom : bn.exp + (decimalDigits m - sigMaxDigits : Nat) + t ≤ beMax
    · rw [if_pos hroom] at hrun
      exact Or.inl ⟨⟨bn.flags.realInexact, bn.flags.realNegative,
        bn.exp + (decimalDigits m - sigMaxDigits : Nat) + t, d, ⟨by omega, hroom⟩,
        ⟨hd.le, hlimit⟩, Or.inl hlast⟩, hrun, rfl, rfl, hvalue.symm⟩
    · rw [if_neg hroom] at hrun
      refine Or.inr ⟨hrun, fun r hr => hroom ?_⟩
      rw [hvalue] at hr
      rw [← NormalReal.exp_eq hd hlast hr]
      exact r.exp_range.2

end Bignum

end Idio
