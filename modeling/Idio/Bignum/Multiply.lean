/-
  Bignum/Multiply.lean --- decimal shifts and multiplication of integer bignums.

  `shiftLeft` is `10 * a + fill` and `shiftRight` the pair of quotient and
  remainder by ten; both move a digit across every segment boundary.
  `multiply` takes the decimal digits off one absolute value from the right and
  adds the other, shifted, once for each unit of the digit.

  The loop runs once for each decimal digit of the first factor.  Its measure is
  that number of digits, its invariant that the product still to be formed and
  the sum formed so far make the product asked for.
-/
import Idio.Bignum.Integer
import Idio.Lib.Decimal
import Idio.Lib.While

set_option autoImplicit false

namespace Idio

namespace Bignum

open Decimal Positional WhileLoop

/-! ## Shifting left -/

/-- `IDIO_BIGNUM_INT_SEG_LIMIT / 10`. -/
def segLimitTenth : Int := segLimit / 10

theorem segLimitTenth_lit : segLimitTenth = 100000000000000000 := by decide

/-- One turn of `idio_bignum_shift_left`: the segment to store and the carry. -/
def shiftLeftStep (i carry : Int) : Int × Int :=
  if i ≥ segLimitTenth then (i.tmod segLimitTenth * 10 + carry, i.tdiv segLimitTenth)
  else (i * 10 + carry, 0)

/-- The loop of `idio_bignum_shift_left` and the carry it appends. -/
def shiftLeftLoop : Bsa → Int → Result Bsa
  | [], carry => .ok (if carry ≠ 0 then [carry] else [])
  | i :: is, carry =>
      if is ≠ [] ∧ i < 0 then .error (.bignumError "non-last bignum segment < 0")
      else (shiftLeftLoop is (shiftLeftStep i carry).2).map ((shiftLeftStep i carry).1 :: ·)

/-- `idio_bignum_shift_left`. -/
def shiftLeft (a : Bignum) (fill : Int) : Result Bignum :=
  (shiftLeftLoop a.sig fill).map integer

theorem shiftLeftStep_spec {i carry : Int} (hi : 0 ≤ i ∧ i < segLimit)
    (hc : 0 ≤ carry ∧ carry < 10) :
    (0 ≤ (shiftLeftStep i carry).1 ∧ (shiftLeftStep i carry).1 < segLimit) ∧
      (0 ≤ (shiftLeftStep i carry).2 ∧ (shiftLeftStep i carry).2 < 10) ∧
      (shiftLeftStep i carry).1 + 1000000000000000000 * (shiftLeftStep i carry).2 =
        10 * i + carry := by
  have hL : segLimit = 1000000000000000000 := rfl
  unfold shiftLeftStep
  rw [segLimitTenth_lit, Int.tmod_eq_emod_of_nonneg hi.1, Int.tdiv_eq_ediv_of_nonneg hi.1]
  split <;> omega

/-- The loop multiplies by ten: as many segments as before, and a carry that is
appended when it is not zero. -/
theorem shiftLeftLoop_spec {s : Bsa} {carry : Int} (hs : Digits segLimit s)
    (hc : 0 ≤ carry ∧ carry < 10) :
    ∃ lo c, shiftLeftLoop s carry = .ok (lo ++ if c ≠ 0 then [c] else []) ∧
      lo.length = s.length ∧ Digits segLimit lo ∧ (0 ≤ c ∧ c < 10) ∧
      value segLimit lo + segLimit ^ s.length * c = 10 * value segLimit s + carry := by
  induction s generalizing carry with
  | nil => exact ⟨[], carry, rfl, rfl, digits_nil _, hc, by simp⟩
  | cons i is ih =>
    obtain ⟨hi, his⟩ := digits_cons.mp hs
    obtain ⟨hd, hc', heq⟩ := shiftLeftStep_spec hi hc
    obtain ⟨lo, c, hrun, hlen, hlo, hcb, hv⟩ := ih his hc'
    refine ⟨(shiftLeftStep i carry).1 :: lo, c, ?_, by simp [hlen], digits_cons.mpr ⟨hd, hlo⟩,
      hcb, ?_⟩
    · rw [shiftLeftLoop, if_neg (by omega), hrun]
      rfl
    · rw [value_cons, value_cons, List.length_cons, pow_succ]
      calc (shiftLeftStep i carry).1 + segLimit * value segLimit lo +
            segLimit ^ is.length * segLimit * c
          = (shiftLeftStep i carry).1 +
              segLimit * (value segLimit lo + segLimit ^ is.length * c) := by ring
        _ = (shiftLeftStep i carry).1 +
              segLimit * (10 * value segLimit is + (shiftLeftStep i carry).2) := by rw [hv]
        _ = (shiftLeftStep i carry).1 + 1000000000000000000 * (shiftLeftStep i carry).2 +
              10 * (segLimit * value segLimit is) := by rw [segLimit_lit]; ring
        _ = 10 * (i + segLimit * value segLimit is) + carry := by rw [heq]; ring

/-- `idio_bignum_shift_left` on a magnitude appends a decimal digit. -/
theorem shiftLeft_isInt {a : Bignum} {x fill : Int} (ha : IsInt a x) (hx : 0 ≤ x)
    (hf : 0 ≤ fill ∧ fill < 10) :
    ∃ r, shiftLeft a fill = .ok r ∧ IsInt r (10 * x + fill) := by
  have hm := ha.magnitude hx
  have hxv : value segLimit a.sig = x := by rw [← hm.toInt_eq, ha.toInt_eq]
  obtain ⟨lo, c, hrun, hlen, hlo, hc, hv⟩ := shiftLeftLoop_spec hm.digits hf
  refine ⟨integer (lo ++ if c ≠ 0 then [c] else []), by rw [shiftLeft, hrun]; rfl, ?_⟩
  have hL := segLimit_lit
  suffices hmag : Magnitude (lo ++ if c ≠ 0 then [c] else []) by
    refine ⟨rfl, hmag.normal, ?_⟩
    rw [integer_sig, hmag.toInt_eq, value_append, hlen, ← hxv, ← hv]
    split
    · simp
    · rename_i h0
      simp [not_not.mp h0]
  by_cases h0 : c = 0
  · -- No carry left: as many segments as before and no smaller a value.
    subst h0
    rw [mul_zero, add_zero] at hv
    rw [if_neg (by simp), List.append_nil]
    refine ⟨hlo, ?_⟩
    rcases hm.shape with hz | ⟨hne, ht⟩
    · rw [hz] at hlen
      obtain ⟨d, rfl⟩ := List.length_eq_one_iff.mp hlen
      by_cases hd : d = 0
      · exact Or.inl (by rw [hd])
      · exact Or.inr ⟨by simp, trimmed_singleton.mpr hd⟩
    · have hpos := List.length_pos_of_ne_nil hne
      refine Or.inr ⟨List.ne_nil_of_length_pos (by omega), trimmed_of_pow_le hlo ?_⟩
      have hle := pow_le_value segLimit_pos hm.digits ht hne
      have hnn := value_nonneg segLimit_pos.le hm.digits
      rw [hlen]
      omega
  · rw [if_pos h0]
    exact magnitude_append.mpr ⟨hlo, by omega, fun _ => h0⟩

/-- Onto zero, a fill of several digits is stored as it is. -/
theorem shiftLeft_zero {a : Bignum} {fill : Int} (ha : a.sig = [0]) :
    shiftLeft a fill = .ok (integer [fill]) := by
  simp [shiftLeft, ha, shiftLeftLoop, shiftLeftStep, segLimitTenth_lit, Except.map]

/-! ## Shifting right -/

/-- The loop of `idio_bignum_shift_right`, from the most significant segment down:
the quotient's segments and the last carry. -/
def shiftRightLoop : Bsa → Bsa × Int
  | [] => ([], 0)
  | i :: is =>
      let rest := shiftRightLoop is
      ((i.tdiv 10 + rest.2 * segLimitTenth) :: rest.1, i.tmod 10)

/-- Of more than one segment, a zero most significant one is popped. -/
def popZeroTop (ra : Bsa) : Bsa := if ra.length > 1 ∧ bsaTop ra = 0 then ra.dropLast else ra

/-- `idio_bignum_shift_right`: `(a / 10, a % 10)`. -/
def shiftRight (a : Bignum) : Bignum × Bignum :=
  let ra := shiftRightLoop (if a.sig = [] then [0] else a.sig)
  (integer (popZeroTop ra.1), integerIntmaxT ra.2)

theorem shiftRightLoop_length (s : Bsa) : (shiftRightLoop s).1.length = s.length := by
  induction s with
  | nil => rfl
  | cons i is ih => simp [shiftRightLoop, ih]

theorem shiftRightLoop_spec {s : Bsa} (hs : Digits segLimit s) :
    Digits segLimit (shiftRightLoop s).1 ∧
      (0 ≤ (shiftRightLoop s).2 ∧ (shiftRightLoop s).2 < 10) ∧
      10 * value segLimit (shiftRightLoop s).1 + (shiftRightLoop s).2 = value segLimit s := by
  induction s with
  | nil => simp [shiftRightLoop]
  | cons i is ih =>
    obtain ⟨hi, his⟩ := digits_cons.mp hs
    obtain ⟨hd, hc, hv⟩ := ih his
    have hL : segLimit = 1000000000000000000 := rfl
    simp only [shiftRightLoop, segLimitTenth_lit, Int.tmod_eq_emod_of_nonneg hi.1,
      Int.tdiv_eq_ediv_of_nonneg hi.1]
    refine ⟨digits_cons.mpr ⟨by omega, hd⟩, by omega, ?_⟩
    rw [value_segLimit_cons, value_segLimit_cons, ← hv]
    omega

/-- Dividing a trimmed numeral by ten costs at most one segment. -/
theorem popZeroTop_magnitude {s : Bsa} (hs : Magnitude s) :
    Magnitude (popZeroTop (shiftRightLoop s).1) ∧
      value segLimit (popZeroTop (shiftRightLoop s).1) =
        value segLimit (shiftRightLoop s).1 := by
  obtain ⟨hd, hc, hv⟩ := shiftRightLoop_spec hs.digits
  have hlen := shiftRightLoop_length s
  have hpos := List.length_pos_of_ne_nil hs.nonempty
  generalize hra : (shiftRightLoop s).1 = ra at hd hv hlen ⊢
  obtain ⟨lo, t, rfl⟩ : ∃ lo t, ra = lo ++ [t] := by
    have hne : ra ≠ [] := List.ne_nil_of_length_pos (by omega)
    exact ⟨ra.dropLast, ra.getLast hne, (List.dropLast_append_getLast hne).symm⟩
  obtain ⟨hlo, ht⟩ := digits_append.mp hd
  have htd := (digits_cons.mp ht).1
  unfold popZeroTop
  split
  · rename_i htop
    obtain ⟨hgt, h0⟩ := htop
    rw [bsaTop_append] at h0
    subst h0
    have hvlo : value segLimit (lo ++ [0]) = value segLimit lo := by simp [value_append]
    rw [List.dropLast_concat]
    refine ⟨⟨hlo, Or.inr ?_⟩, hvlo.symm⟩
    have hlolen : lo.length + 1 = s.length := by simpa using hlen
    have hlopos : 0 < lo.length := by
      simp only [List.length_append, List.length_singleton] at hgt
      omega
    refine ⟨List.ne_nil_of_length_pos hlopos, trimmed_of_pow_le hlo ?_⟩
    -- The value was at least `L ^ (n - 1)`, so its tenth is at least `L ^ (n - 2)`.
    have htr : Trimmed s := by
      rcases hs.shape with rfl | ⟨-, h⟩
      · simp only [List.length_singleton] at hlolen
        omega
      · exact h
    have hle := pow_le_value segLimit_pos hs.digits htr hs.nonempty
    rw [hvlo] at hv
    obtain ⟨m, hm⟩ : ∃ m, lo.length = m + 1 := ⟨lo.length - 1, by omega⟩
    have hs1 : s.length - 1 = m + 1 := by omega
    have hpm : 0 < segLimit ^ m := pow_pos segLimit_pos m
    have hpow : segLimit ^ (m + 1) = segLimit ^ m * 1000000000000000000 := pow_succ segLimit m
    rw [hs1, hpow, ← hv] at hle
    rw [hm, Nat.add_sub_cancel]
    omega
  · rename_i htop
    refine ⟨magnitude_append.mpr ⟨hlo, htd, fun hne h0 => htop ⟨?_, by simpa using h0⟩⟩, rfl⟩
    have := List.length_pos_of_ne_nil hne
    simp only [List.length_append, List.length_singleton]
    omega

/-- `idio_bignum_shift_right` on a magnitude takes off the last decimal digit. -/
theorem shiftRight_isInt {a : Bignum} {x : Int} (ha : IsInt a x) (hx : 0 ≤ x) :
    IsInt (shiftRight a).1 (x / 10) ∧
      (shiftRight a).2 = integer [x % 10] ∧ IsInt (shiftRight a).2 (x % 10) := by
  have hm := ha.magnitude hx
  have hxv : value segLimit a.sig = x := by rw [← hm.toInt_eq, ha.toInt_eq]
  obtain ⟨-, hc, hv⟩ := shiftRightLoop_spec hm.digits
  obtain ⟨hmag, hpop⟩ := popZeroTop_magnitude hm
  rw [hxv] at hv
  have hcarry : (shiftRightLoop a.sig).2 = x % 10 := by omega
  have hL : segLimit = 1000000000000000000 := rfl
  have hsmall : integerIntmaxT (x % 10) = integer [x % 10] :=
    integerIntmaxT_small (by omega) (by omega)
  simp only [shiftRight, if_neg hm.nonempty, hcarry, hsmall, true_and]
  refine ⟨⟨rfl, hmag.normal, ?_⟩, ?_⟩
  · rw [integer_sig, hmag.toInt_eq, hpop]
    omega
  · have := IsInt.of_magnitude (magnitude_small (by omega : 0 ≤ x % 10) (by omega))
    rwa [toInt_small (by omega)] at this

/-! ## Multiplication -/

/-- A segment holds `dpw` digits. -/
theorem decimalDigits_value_le {s : Bsa} (h : Digits segLimit s) :
    decimalDigits (value segLimit s) ≤ dpw * s.length := by
  have hlt := value_lt_pow h
  have hnn := value_nonneg segLimit_pos.le h
  rwa [decimalDigits_le_iff hnn, pow_mul, ← segLimit_eq]

/-- `while (i) { r = idio_bignum_add (r, ab); i--; }` -/
def addTimes (ab : Bignum) (i : Int) (r : Bignum) : Result Bignum :=
  (whileLoop .diverges (fun s => decide (s.2 ≠ 0))
    (fun s => (add s.1 ab).map fun r => (r, s.2 - 1)) (i.toNat + 1) (r, i)).map Prod.fst

/-- The variables of the outer loop of `idio_bignum_multiply`. -/
structure MultiplyState where
  aa : Bignum
  ab : Bignum
  r : Bignum

/-- The body of the outer loop of `idio_bignum_multiply`. -/
def multiplyStep (st : MultiplyState) : Result MultiplyState := do
  let ibsr := shiftRight st.aa
  let r ← addTimes st.ab (ibsr.2.sig.headD 0) st.r
  let ab ← shiftLeft st.ab 0
  pure ⟨ibsr.1, ab, r⟩

/-- `idio_bignum_multiply`. -/
def multiply (a b : Bignum) : Result Bignum := do
  let neg := negativeP a != negativeP b
  let aa := abs a
  let st ← whileLoop .diverges (fun st => !zeroP st.aa) multiplyStep
    (dpw * aa.sig.length + 1) ⟨aa, abs b, integerIntmaxT 0⟩
  pure (if neg then negate st.r else st.r)

theorem addTimes_isInt {ab r : Bignum} {y z i : Int} (hab : IsInt ab y) (hr : IsInt r z)
    (hi : 0 ≤ i) : ∃ r', addTimes ab i r = .ok r' ∧ IsInt r' (z + i * y) := by
  -- What was added so far and what is still to be added make the sum.
  let Inv : Bignum × Int → Prop := fun s => 0 ≤ s.2 ∧ IsInt s.1 (z + (i - s.2) * y)
  have step : ∀ s : Bignum × Int, Inv s → decide (s.2 ≠ 0) = true →
      ∃ s', ((add s.1 ab).map fun r => (r, s.2 - 1)) = .ok s' ∧ Inv s' ∧
        s'.2.toNat < s.2.toNat := by
    rintro ⟨q, j⟩ ⟨hj, hq⟩ hcond
    have hj0 : j ≠ 0 := by simpa using hcond
    obtain ⟨r', hr', hi'⟩ := add_isInt hq hab
    refine ⟨(r', j - 1), by simp [hr', Except.map], ⟨by simp only at hj ⊢; omega, ?_⟩, ?_⟩
    · have : z + (i - (j - 1)) * y = z + (i - j) * y + y := by ring
      simpa only [this] using hi'
    · simp only at hj ⊢
      omega
  have h0 : Inv (r, i) := ⟨hi, by simpa using hr⟩
  obtain ⟨⟨r', j⟩, hrun, ⟨-, hr'⟩, hstop⟩ :=
    whileLoop_total step h0 (Nat.lt_succ_self i.toNat)
  have hj0 : j = 0 := by simpa using hstop
  subst hj0
  refine ⟨r', ?_, by simpa using hr'⟩
  unfold addTimes
  rw [hrun]
  rfl

/-- The invariant of the outer loop of `idio_bignum_multiply` for the product
`p`. -/
def MultiplyInv (p : Int) (st : MultiplyState) : Prop :=
  ∃ x y z, IsInt st.aa x ∧ 0 ≤ x ∧ IsInt st.ab y ∧ 0 ≤ y ∧ IsInt st.r z ∧ z + x * y = p

theorem multiplyStep_inv {p : Int} {st : MultiplyState} (h : MultiplyInv p st)
    (hne : zeroP st.aa = false) :
    ∃ st', multiplyStep st = .ok st' ∧ MultiplyInv p st' ∧
      decimalDigits (toInt st'.aa.sig) < decimalDigits (toInt st.aa.sig) := by
  obtain ⟨x, y, z, hx, hx0, hy, hy0, hz, hp⟩ := h
  have hxpos : 0 < x := by
    have : x ≠ 0 := by simpa [hx.zeroP_eq] using hne
    omega
  obtain ⟨hq, hdigit, -⟩ := shiftRight_isInt hx hx0
  obtain ⟨r, hr, hri⟩ := addTimes_isInt hy hz (by omega : 0 ≤ x % 10)
  obtain ⟨ab, hab, habi⟩ := shiftLeft_isInt hy hy0 (by decide : (0 : Int) ≤ 0 ∧ (0 : Int) < 10)
  refine ⟨⟨(shiftRight st.aa).1, ab, r⟩, ?_, ?_, ?_⟩
  · simp [multiplyStep, hdigit, hr, hab, bind, Except.bind, pure, Except.pure]
  · refine ⟨x / 10, 10 * y + 0, z + x % 10 * y, hq, by omega, habi, by omega, hri, ?_⟩
    have hdm := Int.emod_add_mul_ediv x 10
    calc z + x % 10 * y + x / 10 * (10 * y + 0) = z + (x % 10 + 10 * (x / 10)) * y := by ring
      _ = p := by rw [hdm, hp]
  · rw [hq.toInt_eq, hx.toInt_eq]
    exact decimalDigits_div_ten hxpos

/-- `idio_bignum_multiply` multiplies the integers and returns a normal integer. -/
theorem multiply_isInt {a b : Bignum} {x y : Int} (ha : IsInt a x) (hb : IsInt b y) :
    ∃ r, multiply a b = .ok r ∧ IsInt r (x * y) := by
  have hma := ha.abs.magnitude (abs_nonneg x)
  have hinit : MultiplyInv (|x| * |y|) ⟨abs a, abs b, integerIntmaxT 0⟩ :=
    ⟨|x|, |y|, 0, ha.abs, abs_nonneg x, hb.abs, abs_nonneg y,
      integerIntmaxT_isInt (by decide) (by decide), by ring⟩
  have hfuel : decimalDigits (toInt (abs a).sig) < dpw * (abs a).sig.length + 1 := by
    have := decimalDigits_value_le hma.digits
    rw [hma.toInt_eq]
    omega
  obtain ⟨st, hrun, ⟨x', y', z, hx', -, -, -, hz, hp⟩, hstop⟩ :=
    @whileLoop_total _ _ Fault.diverges (fun st => !zeroP st.aa) multiplyStep
      (MultiplyInv (|x| * |y|)) (fun st => decimalDigits (toInt st.aa.sig))
      (fun st h hc => multiplyStep_inv h (by simpa using hc)) _ _ hinit hfuel
  have hx0 : x' = 0 := by simpa [hx'.zeroP_eq] using hstop
  rw [hx0, zero_mul, add_zero] at hp
  refine ⟨_, by simp only [multiply, hrun, bind, Except.bind, pure, Except.pure]; rfl, ?_⟩
  -- The signs differ exactly when the product of the absolute values is negated.
  rw [ha.negativeP_eq, hb.negativeP_eq]
  rcases abs_cases x with ⟨hax, hx⟩ | ⟨hax, hx⟩ <;>
    rcases abs_cases y with ⟨hay, hy⟩ | ⟨hay, hy⟩ <;> rw [hax, hay] at hp
  · simpa [not_lt.mpr hx, not_lt.mpr hy, ← hp] using hz
  · simpa [not_lt.mpr hx, hy, hp] using hz.negate
  · simpa [hx, not_lt.mpr hy, hp] using hz.negate
  · simpa [hx, hy, hp] using hz

/-! ## Integer arithmetic -/

/-- **Integer bignum arithmetic is exact and keeps normal form.**  Addition,
subtraction and multiplication of normal integers return, for every combination
of signs and lengths, and their results are the normal integers of the sum, the
difference and the product. -/
theorem integer_arithmetic_exact (a b : NormalInteger) :
    (∃ r : NormalInteger, add a.bn b.bn = .ok r.bn ∧ r.toInt = a.toInt + b.toInt) ∧
      (∃ r : NormalInteger, subtract a.bn b.bn = .ok r.bn ∧ r.toInt = a.toInt - b.toInt) ∧
      (∃ r : NormalInteger, multiply a.bn b.bn = .ok r.bn ∧ r.toInt = a.toInt * b.toInt) := by
  obtain ⟨s, hs, hsi⟩ := add_isInt a.isInt b.isInt
  obtain ⟨d, hd, hdi⟩ := subtract_isInt a.isInt b.isInt
  obtain ⟨p, hp, hpi⟩ := multiply_isInt a.isInt b.isInt
  exact ⟨⟨hsi.toNormal, hs, hsi.toNormal_toInt⟩, ⟨hdi.toNormal, hd, hdi.toNormal_toInt⟩,
    ⟨hpi.toNormal, hp, hpi.toNormal_toInt⟩⟩

end Bignum

end Idio
