/-
  Bignum/Canonical.lean --- the normal form of a real is canonical.

  `normalize` cuts a significand of any length to 18 digits and strips the zeros at
  its end, counting both in the exponent.  What comes out is determined by the
  number: there is one pair of significand and exponent for it (`NormalForm.inj`),
  and `normalize` gives that pair, unless the exponent is larger than an `int32_t`.

  The flags are copied.  So a zero keeps the sign flag it had, but the sign is read
  with `IDIO_BIGNUM_REAL_NEGATIVE_P`, which is false of every zero.
-/
import Idio.Bignum.RealCompare

set_option autoImplicit false

namespace Idio

namespace Bignum

open Decimal Positional

/-- A real bignum: a magnitude of any length with an `int32_t` exponent. -/
structure IsReal (bn : Bignum) : Prop where
  isReal : bn.flags.integer = false ∧ bn.flags.real = true
  magnitude : Magnitude bn.sig
  exp_range : beMin ≤ bn.exp ∧ bn.exp ≤ beMax

/-- The absolute value of a real bignum. -/
def magnitudeValue (bn : Bignum) : ℚ := toInt bn.sig * 10 ^ bn.exp

/-- The number a real bignum stands for. -/
def realValue (bn : Bignum) : ℚ :=
  if realNegativeP bn then - magnitudeValue bn else magnitudeValue bn

/-- `d * 10 ^ e` is the normal form of `bn`. -/
structure NormalForm (bn : Bignum) (d e : Int) : Prop where
  value_eq : (d : ℚ) * 10 ^ e = truncate sigMaxDigits (magnitudeValue bn)
  digits : 0 ≤ d ∧ decimalDigits d ≤ sigMaxDigits
  canonical : d % 10 ≠ 0 ∨ (d = 0 ∧ e = 0)

/-- No digit but zeros behind the first 18. -/
def FewDigits (bn : Bignum) : Prop :=
  ∃ (d : Int) (t : Nat), toInt bn.sig = d * 10 ^ t ∧ 0 ≤ d ∧ decimalDigits d ≤ sigMaxDigits

theorem IsReal.hasMagnitude {bn : Bignum} (h : IsReal bn) : HasMagnitude bn (toInt bn.sig) :=
  ⟨h.magnitude, rfl⟩

theorem IsReal.toInt_nonneg {bn : Bignum} (h : IsReal bn) : 0 ≤ toInt bn.sig :=
  h.hasMagnitude.nonneg

/-- **The normal form is determined by the number.** -/
theorem NormalForm.inj {bn bn' : Bignum} {d e d' e' : Int} (h : NormalForm bn d e)
    (h' : NormalForm bn' d' e')
    (heq : truncate sigMaxDigits (magnitudeValue bn) =
      truncate sigMaxDigits (magnitudeValue bn')) : d = d' ∧ e = e' :=
  canonical_inj h.canonical h'.canonical (by rw [h.value_eq, h'.value_eq, heq])

/-- **What `normalize` gives.** -/
theorem IsReal.normalize_eq {bn : Bignum} (h : IsReal bn) :
    ∃ d e : Int, NormalForm bn d e ∧
      normalize bn =
        if e ≤ beMax then .ok (real bn.flags e [d]) else .error exponentOverflow := by
  rcases h.toInt_nonneg.eq_or_lt with hzero | hpos
  · refine ⟨0, 0, ⟨?_, by decide, .inr ⟨rfl, rfl⟩⟩, ?_⟩
    · simp [magnitudeValue, ← hzero, truncate]
    · rw [normalize_zero ⟨h.magnitude, hzero.symm⟩, if_pos (by decide)]
  · obtain ⟨d, t, hdt, hd, hlast, hvalue⟩ := truncate_canonical hpos bn.exp
    have hlt : d < 10 ^ sigMaxDigits := stripped_lt hpos hd hdt
    refine ⟨d, _, ⟨hvalue.symm, ⟨hd.le, (decimalDigits_le_iff hd.le).mpr hlt⟩, .inl hlast⟩, ?_⟩
    exact normalize_pos h.hasMagnitude hpos h.exp_range.2 hd hlast hdt

/-- The result as a normal real. -/
theorem IsReal.exists_normalReal {bn n : Bignum} (h : IsReal bn) (hn : normalize bn = .ok n) :
    ∃ r : NormalReal, n = r.bn ∧ r.negative = bn.flags.realNegative ∧
      r.inexact = bn.flags.realInexact ∧
      r.absRat = truncate sigMaxDigits (magnitudeValue bn) := by
  rcases normalize_outcome h.hasMagnitude h.exp_range with ⟨r, hr, hneg, hinexact, habs⟩ | ⟨herr, -⟩
  · rw [hn] at hr
    exact ⟨r, Except.ok.inj hr, hneg, hinexact, habs⟩
  · rw [hn] at herr
    cases herr

theorem magnitudeValue_bn (r : NormalReal) : magnitudeValue r.bn = r.absRat := by
  rw [magnitudeValue, r.hasMagnitude.toInt_eq]
  rfl

theorem realValue_bn (r : NormalReal) : realValue r.bn = r.toRat := by
  rw [realValue, r.realNegativeP_eq, magnitudeValue_bn]
  rcases r.toRat_nonneg_or with ⟨-, -, hneg, hr⟩ | ⟨hpos, hr⟩
  · rw [decide_eq_true hneg, if_pos rfl, hr]
  · rw [decide_eq_false (not_lt.mpr hpos), if_neg (by decide), hr]

theorem NormalReal.isReal_bn (r : NormalReal) : IsReal r.bn :=
  ⟨⟨rfl, rfl⟩, r.hasMagnitude.magnitude, r.exp_range⟩

/-- A normal real is its own normal form. -/
theorem NormalReal.normalize_bn (r : NormalReal) : normalize r.bn = .ok r.bn := by
  obtain ⟨d, e, hform, hrun⟩ := r.isReal_bn.normalize_eq
  have hself : NormalForm r.bn r.sig r.exp := by
    refine ⟨?_, ⟨r.sig_range.1, r.digits_le⟩, r.canonical⟩
    rw [magnitudeValue_bn, NormalReal.absRat,
      truncate_mul_zpow_of_le r.sig_range.1 r.digits_le r.exp]
  obtain ⟨rfl, rfl⟩ := hself.inj hform rfl
  rw [hrun, if_pos r.exp_range.2]
  rfl

theorem IsReal.realZeroP_iff {bn : Bignum} (h : IsReal bn) :
    realZeroP bn = true ↔ toInt bn.sig = 0 := by
  rw [← h.magnitude.normal.zeroP_iff]
  have hpos := List.length_pos_of_ne_nil h.magnitude.normal.nonempty
  by_cases hlong : bn.sig.length > 1
  · simp [realZeroP, zeroP, hlong, hlong.ne']
  · have hone : bn.sig.length = 1 := by omega
    simp [realZeroP, zeroP, hone]

/-- The sign of a zero does not count. -/
theorem realValue_eq {bn : Bignum} (h : IsReal bn) :
    realValue bn = if bn.flags.realNegative then - magnitudeValue bn else magnitudeValue bn := by
  rw [realValue, realNegativeP]
  by_cases hzero : realZeroP bn
  · simp [hzero, magnitudeValue, h.realZeroP_iff.mp hzero]
  · simp [hzero]

theorem IsReal.realValue_normalize {bn n : Bignum} (h : IsReal bn) (hn : normalize bn = .ok n) :
    realValue n = truncate sigMaxDigits (realValue bn) := by
  obtain ⟨r, rfl, hneg, -, habs⟩ := h.exists_normalReal hn
  rw [realValue_bn, realValue_eq h, NormalReal.toRat, hneg, habs]
  by_cases hsign : bn.flags.realNegative
  · rw [if_pos hsign, if_pos hsign, truncate_neg]
  · rw [if_neg hsign, if_neg hsign]

theorem FewDigits.truncate_eq {bn : Bignum} (h : FewDigits bn) :
    truncate sigMaxDigits (realValue bn) = realValue bn := by
  obtain ⟨d, t, hsig, hd, hdigits⟩ := h
  have hval : magnitudeValue bn = d * 10 ^ (bn.exp + t) := by
    rw [magnitudeValue, hsig, zpow_add₀ (by norm_num), zpow_natCast]
    push_cast
    ring
  have habs := truncate_mul_zpow_of_le hd hdigits (bn.exp + t)
  rw [← hval] at habs
  rw [realValue]
  split
  · rw [truncate_neg, habs]
  · exact habs

/-- Reals of one absolute value have one normal form, or neither has one. -/
theorem IsReal.normalize_congr {bn bn' n : Bignum} (h : IsReal bn) (h' : IsReal bn')
    (heq : |realValue bn| = |realValue bn'|) (hn : normalize bn = .ok n) :
    ∃ n', normalize bn' = .ok n' := by
  have habs : ∀ {b : Bignum}, IsReal b → |realValue b| = magnitudeValue b := by
    intro b hb
    have hsig : (0 : ℚ) ≤ toInt b.sig := by exact_mod_cast hb.toInt_nonneg
    have hpos : 0 ≤ magnitudeValue b := mul_nonneg hsig (by positivity)
    rw [realValue]
    split
    · rw [abs_neg, abs_of_nonneg hpos]
    · exact abs_of_nonneg hpos
  rw [habs h, habs h'] at heq
  obtain ⟨d, e, hform, hrun⟩ := h.normalize_eq
  obtain ⟨d', e', hform', hrun'⟩ := h'.normalize_eq
  obtain ⟨-, rfl⟩ := hform.inj hform' (by rw [heq])
  rw [hn] at hrun
  have hroom : e ≤ beMax := by
    by_contra hover
    rw [if_neg hover] at hrun
    cases hrun
  exact ⟨_, by rw [hrun', if_pos hroom]⟩

/-- **Normal forms.**  `normalize` ends with the normal form, or with `exponent overflow` when
that has an exponent beyond an `int32_t`; it is the real cut to 18 digits; it is its own normal
form; and it tells reals of up to 18 digits apart, as `real_equal_p` does. -/
theorem normalize_canonical {bn : Bignum} (h : IsReal bn) :
    (∃ d e : Int, NormalForm bn d e ∧ normalize bn =
      if e ≤ beMax then .ok (real bn.flags e [d]) else .error exponentOverflow) ∧
    (∀ n, normalize bn = .ok n →
      realValue n = truncate sigMaxDigits (realValue bn) ∧ normalize n = .ok n ∧
        (n.sig = [0] → n.exp = 0 ∧ realNegativeP n = false)) ∧
    ∀ bn', IsReal bn' → FewDigits bn → FewDigits bn' →
      (realValue bn = realValue bn' →
        ((∃ n, normalize bn = .ok n) ↔ ∃ n', normalize bn' = .ok n')) ∧
      ∀ n n', normalize bn = .ok n → normalize bn' = .ok n' →
        (realValue bn = realValue bn' ↔
          realNegativeP n = realNegativeP n' ∧ n.exp = n'.exp ∧ n.sig = n'.sig) ∧
        (n.flags.realInexact = n'.flags.realInexact →
          realEqualP n n' = .ok (decide (realValue bn = realValue bn'))) := by
  refine ⟨h.normalize_eq, fun n hn => ⟨h.realValue_normalize hn, ?_, ?_⟩, ?_⟩
  · obtain ⟨r, rfl, -⟩ := h.exists_normalReal hn
    exact r.normalize_bn
  · obtain ⟨r, rfl, -⟩ := h.exists_normalReal hn
    intro hsig
    have hzero : r.sig = 0 := (List.cons.inj hsig).1
    refine ⟨(r.canonical.resolve_left fun hlast => hlast (by rw [hzero]; rfl)).2, ?_⟩
    rw [realNegativeP, r.realZeroP_eq, hzero]
    simp
  · intro bn' h' hfew hfew'
    refine ⟨fun heq => ⟨?_, ?_⟩, fun n n' hn hn' => ?_⟩
    · rintro ⟨n, hn⟩
      exact h.normalize_congr h' (by rw [heq]) hn
    · rintro ⟨n', hn'⟩
      exact h'.normalize_congr h (by rw [heq]) hn'
    · rw [← hfew.truncate_eq, ← hfew'.truncate_eq, ← h.realValue_normalize hn,
        ← h'.realValue_normalize hn']
      obtain ⟨r, rfl, -⟩ := h.exists_normalReal hn
      obtain ⟨s, rfl, -⟩ := h'.exists_normalReal hn'
      rw [realValue_bn, realValue_bn]
      refine ⟨(r.toRat_eq_iff s).trans ?_, fun hinexact => realEqualP_normal hinexact⟩
      have hsig : r.bn.sig = s.bn.sig ↔ r.sig = s.sig := by simp [NormalReal.bn]
      rw [hsig]
      rfl

/-- -12.5e15 with its digits in two segments, and -125e14 with two zeros behind. -/
theorem normalize_canonical_zeros :
    realValue ⟨⟨false, true, true, false⟩, -3, [500000000000000000, 12]⟩ =
        realValue ⟨⟨false, true, true, false⟩, 12, [12500]⟩ ∧
      normalize ⟨⟨false, true, true, false⟩, 14, [125]⟩ =
        .ok ⟨⟨false, true, true, false⟩, 14, [125]⟩ := by
  have h : IsReal ⟨⟨false, true, true, false⟩, -3, [500000000000000000, 12]⟩ :=
    ⟨⟨rfl, rfl⟩, ⟨by simp [Digits, segLimit], .inr ⟨by decide, by simp [Trimmed]⟩⟩, by decide⟩
  have h' : IsReal ⟨⟨false, true, true, false⟩, 12, [12500]⟩ :=
    ⟨⟨rfl, rfl⟩, magnitude_small (by decide) (by decide), by decide⟩
  obtain ⟨-, hresult, hequal⟩ := normalize_canonical h
  obtain ⟨-, hequal⟩ := hequal _ h' ⟨125, 17, by decide, by decide, by decide⟩
    ⟨125, 2, by decide, by decide, by decide⟩
  exact ⟨(hequal _ _ rfl rfl).1.mpr ⟨rfl, rfl, rfl⟩, (hresult _ rfl).2.1⟩

/-- Zero keeps the flag of its sign. -/
theorem normalize_negative_zero :
    normalize ⟨⟨false, true, true, false⟩, 5, [0]⟩ = .ok ⟨⟨false, true, true, false⟩, 0, [0]⟩ ∧
      normalize ⟨⟨false, true, false, false⟩, 5, [0]⟩ = .ok ⟨⟨false, true, false, false⟩, 0, [0]⟩ ∧
      realValue ⟨⟨false, true, true, false⟩, 5, [0]⟩ =
        realValue ⟨⟨false, true, false, false⟩, 5, [0]⟩ ∧
      realEqualP ⟨⟨false, true, true, false⟩, 0, [0]⟩ ⟨⟨false, true, false, false⟩, 0, [0]⟩ =
        .ok true := by
  refine ⟨rfl, rfl, ?_, rfl⟩
  rw [realValue, realValue, if_neg (by decide), if_neg (by decide)]
  rfl

end Bignum

end Idio
