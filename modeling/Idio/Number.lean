/-
  Number.lean --- fixnums, bignums and the conversions between them.

  A fixnum is a machine word less its type bits.  `Num` is what a C function that
  computes with numbers gets and returns; `Number` is a number in the form the
  program keeps them in: a fixnum in its range, an integer bignum in normal form or
  a real in normal form.

  `toFixnum` is the conversion the generic arithmetic ends with.  On a normal
  integer it is exact: a fixnum if there is one, else the argument (`toFixnum_isInt`).
-/
import Idio.Bignum.RealArithmetic

set_option autoImplicit false

namespace Idio

open Bignum Positional

/-- `IDIO_FIXNUM_MAX`. -/
def fixnumMax : Int := 2305843009213693951

/-- `IDIO_FIXNUM_MIN`. -/
def fixnumMin : Int := -2305843009213693952

/-- The values a fixnum can have. -/
def InFixnumRange (v : Int) : Prop := fixnumMin ≤ v ∧ v ≤ fixnumMax

instance (v : Int) : Decidable (InFixnumRange v) := inferInstanceAs (Decidable (_ ∧ _))

/-- A numeric `IDIO` value. -/
inductive Num where
  | fixnum (v : Int)
  | bignum (bn : Bignum)
  deriving DecidableEq, Repr

/-- `idio_isa_bignum`. -/
def Num.isBignum : Num → Bool
  | .fixnum _ => false
  | .bignum _ => true

/-- The bignum of a number, by `idio_bignum_integer_intmax_t` for a fixnum. -/
def Num.toBignum : Num → Bignum
  | .fixnum v => integerIntmaxT v
  | .bignum bn => bn

/-- `IDIO_FIXNUM_VAL`, read on fixnums only. -/
def Num.fixnumVal : Num → Int
  | .fixnum v => v
  | .bignum _ => 0

/-! ## From bignums to fixnums -/

/-- The value of an `intptr_t` computation, which wraps round. -/
def wrap64 (i : Int) : Int := (i + 9223372036854775808) % 18446744073709551616 - 9223372036854775808

theorem wrap64_of_mem {i : Int} (hlo : intmaxMin ≤ i) (hhi : i ≤ intmaxMax) : wrap64 i = i := by
  simp only [intmaxMin, intmaxMax, wrap64] at *
  omega

/-- The loop of `idio_bignum_to_fixnum`, from the most significant segment down;
`none` when the word has overflowed. -/
def toFixnumLoop : List Int → Int → Bool → Bool → Option Int
  | [], iv, _, neg => some (if neg then - iv else iv)
  | sv :: svs, iv, ivnz, neg =>
      let piv := wrap64 (iv * segLimit)
      let next := wrap64 (piv + |sv|)
      if next < piv then none
      else if ivnz && next == 0 then none
      else toFixnumLoop svs next (ivnz || next != 0) (neg || decide (sv < 0))

/-- `IDIO_BIGNUM_fixnum_WORDS`. -/
def fixnumWords : Nat := 2

/-- `IDIO_BIGNUM_fixnum_FIRST`. -/
def fixnumFirst : Int := 2

/-- `idio_bignum_to_fixnum`: the fixnum, or the argument where there is none. -/
def toFixnum (bn : Bignum) : Num :=
  let al := bn.sig.length
  let a1 := bsaTop bn.sig
  if !bn.flags.integer then .bignum bn
  else if al > 1 ∧ (al > fixnumWords ∨
      (al = fixnumWords ∧ (a1 > fixnumFirst ∨ a1 < - fixnumFirst))) then .bignum bn
  else
    match toFixnumLoop bn.sig.reverse 0 false false with
    | some iv => if iv ≤ fixnumMax ∧ iv ≥ fixnumMin then .fixnum iv else .bignum bn
    | none => .bignum bn

/-- One segment: the loop reads it off. -/
theorem toFixnumLoop_one {t : Int} (ht : - segLimit < t ∧ t < segLimit) :
    toFixnumLoop [t] 0 false false = some t := by
  have habs : 0 ≤ |t| ∧ |t| < segLimit := ⟨abs_nonneg t, abs_lt.mpr ht⟩
  have hL : segLimit = 1000000000000000000 := rfl
  have hwrap : wrap64 |t| = |t| :=
    wrap64_of_mem (by simp only [intmaxMin]; omega) (by simp only [intmaxMax]; omega)
  have hwrap0 : wrap64 0 = 0 := by decide
  simp only [toFixnumLoop, zero_mul, hwrap0, zero_add, hwrap, not_lt.mpr habs.1, if_false,
    Bool.false_and, Bool.false_or, Bool.false_eq_true]
  rcases lt_or_ge t 0 with hneg | hpos
  · simp [hneg, abs_of_neg hneg]
  · simp [not_lt.mpr hpos, abs_of_nonneg hpos]

/-- Two segments, the top one small enough for a word. -/
theorem toFixnumLoop_two {l t : Int} (hl : 0 ≤ l ∧ l < segLimit) (ht : -2 ≤ t ∧ t ≤ 2)
    (h0 : t ≠ 0) : toFixnumLoop [t, l] 0 false false =
      some (if t < 0 then - (l + segLimit * (- t)) else l + segLimit * t) := by
  have hL : segLimit = 1000000000000000000 := rfl
  have habs : 0 < |t| ∧ |t| ≤ 2 := ⟨abs_pos.mpr h0, abs_le.mpr ht⟩
  have hmul : |t| * segLimit ≤ 2 * segLimit := by nlinarith
  have hpos : 0 < |t| * segLimit := mul_pos habs.1 segLimit_pos
  have hw1 : wrap64 |t| = |t| :=
    wrap64_of_mem (by simp only [intmaxMin]; omega) (by simp only [intmaxMax]; omega)
  have hw2 : wrap64 (|t| * segLimit) = |t| * segLimit :=
    wrap64_of_mem (by simp only [intmaxMin]; omega) (by simp only [intmaxMax]; omega)
  have hw3 : wrap64 (|t| * segLimit + |l|) = |t| * segLimit + l := by
    rw [abs_of_nonneg hl.1]
    exact wrap64_of_mem (by simp only [intmaxMin]; omega) (by simp only [intmaxMax]; omega)
  have hwrap0 : wrap64 0 = 0 := by decide
  have hnz : (|t| * segLimit + l == 0) = false := by
    rw [beq_eq_false_iff_ne]
    omega
  simp only [toFixnumLoop, zero_mul, hwrap0, zero_add, hw1, hw2, hw3, not_lt.mpr habs.1.le,
    if_false, Bool.false_and, Bool.false_or, Bool.false_eq_true, hnz, Bool.and_false,
    show ¬ |t| * segLimit + l < |t| * segLimit by omega, not_lt.mpr hl.1, decide_false,
    Bool.or_false]
  rcases lt_or_ge t 0 with hneg | hpos
  · simp [hneg, abs_of_neg hneg]
    ring
  · simp [not_lt.mpr hpos, abs_of_nonneg hpos]
    ring

/-- **`idio_bignum_to_fixnum` on a normal integer**: the fixnum of its value, or the
argument when the value is out of range. -/
theorem toFixnum_isInt {bn : Bignum} {n : Int} (h : IsInt bn n) :
    toFixnum bn = if InFixnumRange n then .fixnum n else .bignum bn := by
  have hL : segLimit = 1000000000000000000 := rfl
  obtain ⟨lo, t, hs, hlo, ht, hlead⟩ := h.normal.split
  have hn := h.toInt_eq
  rw [hs, toInt_append] at hn
  simp only [toFixnum, h.isInteger, hs, bsaTop_append, Bool.not_true, Bool.false_eq_true, if_false]
  match lo, hlo, hlead with
  | [], _, _ =>
    have hnt : n = t := by simpa using hn.symm
    simp [toFixnumLoop_one ht, hnt, InFixnumRange, and_comm]
  | [l], hlo, hlead =>
    have hl := (digits_cons.mp hlo).1
    have h0 : t ≠ 0 := hlead (by simp)
    simp only [value_cons, value_nil, mul_zero, add_zero, List.length_singleton, pow_one] at hn
    by_cases hbig : t > 2 ∨ t < -2
    · have hout : ¬ InFixnumRange n := by
        rw [hL] at hn
        simp only [InFixnumRange, fixnumMin, fixnumMax]
        split at hn <;> omega
      simp [fixnumWords, fixnumFirst, hbig, hout]
    · have hloop := toFixnumLoop_two hl (by omega : -2 ≤ t ∧ t ≤ 2) h0
      rw [hn] at hloop
      simp [fixnumWords, fixnumFirst, hbig, hloop, InFixnumRange, and_comm]
  | l :: l' :: rest, hlo, hlead =>
    have h0 : t ≠ 0 := hlead (by simp)
    have hv := value_nonneg segLimit_pos.le hlo
    have hpow : segLimit ^ 2 ≤ segLimit ^ (l :: l' :: rest).length :=
      pow_le_pow_right₀ (by decide) (by simp)
    have hsq : segLimit ^ 2 = 1000000000000000000000000000000000000 := by decide
    have hout : ¬ InFixnumRange n := by
      simp only [InFixnumRange, fixnumMin, fixnumMax]
      split at hn
      · have := mul_le_mul_of_nonneg_left (by omega : 1 ≤ - t)
          (by omega : 0 ≤ segLimit ^ (l :: l' :: rest).length)
        omega
      · have := mul_le_mul_of_nonneg_left (by omega : 1 ≤ t)
          (by omega : 0 ≤ segLimit ^ (l :: l' :: rest).length)
        omega
    simp [fixnumWords, hout]

/-! ## Numbers in the form the program keeps them in -/

/-- A number: a fixnum, a normal integer bignum or a normal real. -/
inductive Number where
  | fixnum (v : Int) (range : InFixnumRange v)
  | integer (a : NormalInteger)
  | real (r : NormalReal)

/-- The value a C function gets for a number. -/
def Number.toNum : Number → Num
  | .fixnum v _ => .fixnum v
  | .integer a => .bignum a.bn
  | .real r => .bignum r.bn

/-- The rational number a number stands for. -/
def Number.value : Number → ℚ
  | .fixnum v _ => v
  | .integer a => a.toInt
  | .real r => r.toRat

/-- A fixnum or an integer bignum. -/
def Number.IsInteger : Number → Prop
  | .fixnum _ _ => True
  | .integer _ => True
  | .real _ => False

/-- A fixnum. -/
def Number.IsFixnum : Number → Prop
  | .fixnum _ _ => True
  | .integer _ => False
  | .real _ => False

/-- Exact: not a real that is flagged inexact. -/
def Number.Exact : Number → Prop
  | .fixnum _ _ => True
  | .integer _ => True
  | .real r => r.inexact = false

theorem fixnum_isInt {v : Int} (h : InFixnumRange v) : IsInt (integerIntmaxT v) v := by
  have hr : intmaxMin ≤ v ∧ v ≤ intmaxMax := by
    simp only [InFixnumRange, fixnumMin, fixnumMax, intmaxMin, intmaxMax] at *
    omega
  exact integerIntmaxT_isInt hr.1 hr.2

/-- The integer a number stands for, zero for a real. -/
def Number.intValue : Number → Int
  | .fixnum v _ => v
  | .integer a => a.toInt
  | .real _ => 0

theorem Number.IsInteger.value_eq {x : Number} (h : x.IsInteger) : x.value = x.intValue := by
  cases x with
  | fixnum v hv => rfl
  | integer a => rfl
  | real r => exact h.elim

theorem Number.IsInteger.isInt {x : Number} (h : x.IsInteger) :
    IsInt x.toNum.toBignum x.intValue := by
  cases x with
  | fixnum v hv => exact fixnum_isInt hv
  | integer a => exact a.isInt
  | real r => exact h.elim

theorem Number.isBignum_eq_false_iff {x : Number} : x.toNum.isBignum = false ↔ x.IsFixnum := by
  cases x <;> simp [Number.toNum, Num.isBignum, Number.IsFixnum]

theorem Number.IsFixnum.fixnumVal_eq {x : Number} (h : x.IsFixnum) :
    x.toNum.fixnumVal = x.intValue ∧ InFixnumRange x.intValue := by
  cases x with
  | fixnum v hv => exact ⟨rfl, hv⟩
  | integer a => exact h.elim
  | real r => exact h.elim

end Idio
