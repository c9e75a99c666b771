/-
  Bignum/CType.lean --- bignums as C integers.

  `IDIO_BIGNUM_C_TYPE_VALUE` and `IDIO_BIGNUM_C_TYPE_UVALUE` are the bodies of the functions that
  make a C integer of a bignum, here for a machine of 64 bits.  A bignum of more than one segment is
  tried as a fixnum first; one of two segments is put together in the C type.

  The signed sum is tested against the greatest value of the type, before the sign is put on: the
  least value of the type does not pass (`cTypeValue_spec`).  The unsigned sum is not tested, nor is
  the sign of what is a fixnum or a single segment (`cTypeUvalue_spec`).
-/
import Idio.Text
import Idio.Bitset.Read
import Mathlib.Algebra.Order.Group.Unbundled.Int

set_option autoImplicit false

namespace Idio

open Bignum Positional

/-- A C integer type, as the macros know it: `T`, `IDIO_BIGNUM_T_WORDS`, `IDIO_BIGNUM_T_FIRST`
and `M`. -/
structure CType where
  name : String
  words : Nat
  first : Int
  max : Int

/-- The message for a bignum that is too large. -/
def tooLargeMessage (t : CType) (bn : Bignum) : Text :=
  asString bn ++ (" is too large for " ++ t.name ++ " (" ++ toString t.max ++ ")").toList

/-- The error for a bignum that is too large; `idio_snprintf` has an error of its own for a message
that does not fit in `BUFSIZ` characters. -/
def tooLarge (bufsiz : Nat) (t : CType) (bn : Bignum) : Fault :=
  let em := tooLargeMessage t bn
  if em.length < bufsiz then .bignumConversionError (String.ofList em)
  else .stringError (String.ofList (List.take 79
    (("idio_snprintf: reqd " ++ toString em.length ++ " in " ++ toString bufsiz ++
      " available: \"").toList ++ em.take (bufsiz - 1) ++ ['"'])))

/-- The loop of `IDIO_BIGNUM_C_TYPE_VALUE` over the lower segments; `none` when the next one does
not fit. -/
def valueSegs (m : Int) : List Int → Int → Option Int
  | [], v => some v
  | sig :: sigs, v =>
      if sig > m - wrap64 (v * segLimit) then none
      else valueSegs m sigs (wrap64 (v * segLimit) + sig)

/-- `IDIO_BIGNUM_C_TYPE_VALUE` -/
def cTypeValue (bufsiz : Nat) (t : CType) (bn : Bignum) : Result Int := do
  match ← integerArgument bn with
  | none => return 0
  | some bnI =>
      let a1 := bsaTop bnI.sig
      let ai := bnI.sig.length
      if ai > 1 then
        match toFixnum bnI with
        | .fixnum v => return v
        | .bignum _ =>
            if ai < t.words ∨ (ai = t.words ∧ a1 ≤ t.first ∧ a1 ≥ - t.first) then
              match valueSegs t.max bnI.sig.dropLast.reverse |a1| with
              | none => .error (.bignumConversionError "significand overflow")
              | some v =>
                  let v := if a1 < 0 then - v else v
                  if (a1 < 0 ∧ v < 0) ∨ (a1 ≥ 0 ∧ v ≥ 0) then return v
                  else .error (tooLarge bufsiz t bnI)
            else .error (tooLarge bufsiz t bnI)
      else return a1

/-- A conversion to an unsigned type of 64 bits. -/
def unsigned64 (i : Int) : Int := i % 18446744073709551616

/-- The loop of `IDIO_BIGNUM_C_TYPE_UVALUE` over the lower segments. -/
def uvalueSegs : List Int → Int → Int
  | [], v => v
  | sig :: sigs, v => uvalueSegs sigs (unsigned64 (unsigned64 (v * segLimit) + sig))

/-- `IDIO_BIGNUM_C_TYPE_UVALUE` -/
def cTypeUvalue (bufsiz : Nat) (t : CType) (bn : Bignum) : Result Int := do
  match ← integerArgument bn with
  | none => return 0
  | some bnI =>
      let a1 := bsaTop bnI.sig
      let ai := bnI.sig.length
      if ai > 1 then
        match toFixnum bnI with
        | .fixnum v => return unsigned64 v
        | .bignum _ =>
            if ai < t.words ∨ (ai = t.words ∧ a1 ≤ t.first ∧ a1 ≥ 0) then
              return uvalueSegs bnI.sig.dropLast.reverse (unsigned64 a1)
            else .error (tooLarge bufsiz t bnI)
      else return unsigned64 a1

/-! ## The types -/

/-- `idio_bignum_long_value` -/
def longValue (bufsiz : Nat) : Bignum → Result Int :=
  cTypeValue bufsiz ⟨"long", 2, 9, 9223372036854775807⟩

/-- `idio_bignum_int64_t_value` -/
def int64TValue (bufsiz : Nat) : Bignum → Result Int :=
  cTypeValue bufsiz ⟨"int64_t", 2, 9, 9223372036854775807⟩

/-- `idio_bignum_uint64_t_value` -/
def uint64TValue (bufsiz : Nat) : Bignum → Result Int :=
  cTypeUvalue bufsiz ⟨"uint64_t", 2, 18, 18446744073709551615⟩

/-- `idio_bignum_ptrdiff_t_value` -/
def ptrdiffTValue (bufsiz : Nat) : Bignum → Result Int :=
  cTypeValue bufsiz ⟨"ptrdiff_t", 2, 9, 9223372036854775807⟩

/-- `idio_bignum_intptr_t_value` -/
def intptrTValue (bufsiz : Nat) : Bignum → Result Int :=
  cTypeValue bufsiz ⟨"intptr_t", 2, 9, 9223372036854775807⟩

/-- `idio_bignum_intmax_t_value` -/
def intmaxTValue (bufsiz : Nat) : Bignum → Result Int :=
  cTypeValue bufsiz ⟨"intmax_t", 2, 9, 9223372036854775807⟩

/-- `idio_bignum_uintmax_t_value` -/
def uintmaxTValue (bufsiz : Nat) : Bignum → Result Int :=
  cTypeUvalue bufsiz ⟨"uintmax_t", 2, 18, 18446744073709551615⟩

/-! ## Segments -/

variable {z : Int} {bn : Bignum}

/-- A normal integer has one segment, or two, or is above both. -/
theorem segments_isInt (h : IsInt bn z) :
    (bn.sig = [z] ∧ |z| < segLimit) ∨
    (∃ l t, bn.sig = [l, t] ∧ (0 ≤ l ∧ l < segLimit) ∧ t ≠ 0 ∧
      z = if t < 0 then - (l + segLimit * - t) else l + segLimit * t) ∨
    (2 < bn.sig.length ∧ segLimit ^ 2 ≤ |z|) := by
  obtain ⟨lo, t, hs, hlo, ht, hlead⟩ := h.normal.split
  have hz := h.toInt_eq
  rw [hs, toInt_append] at hz
  match lo, hlo, hlead with
  | [], _, _ =>
    left
    have htz : z = t := by simpa using hz.symm
    rw [hs, htz]
    exact ⟨rfl, abs_lt.mpr ht⟩
  | [l], hlo, hlead =>
    right; left
    refine ⟨l, t, hs, (digits_cons.mp hlo).1, hlead (by simp), ?_⟩
    rw [← hz]
    simp
  | l :: l' :: rest, hlo, hlead =>
    right; right
    have h0 : t ≠ 0 := hlead (by simp)
    have hv := value_nonneg segLimit_pos.le hlo
    have hpow : segLimit ^ 2 ≤ segLimit ^ (l :: l' :: rest).length :=
      pow_le_pow_right₀ (by decide) (by simp)
    refine ⟨by rw [hs]; simp, hpow.trans ?_⟩
    rcases lt_or_gt_of_ne h0 with hneg | hpos
    · rw [if_pos hneg] at hz
      have hmul := mul_le_mul_of_nonneg_left (by omega : 1 ≤ - t)
        (pow_nonneg segLimit_pos.le (l :: l' :: rest).length)
      rw [← hz, abs_neg]
      refine le_trans ?_ (le_abs_self _)
      linarith
    · rw [if_neg (by omega)] at hz
      have hmul := mul_le_mul_of_nonneg_left (by omega : 1 ≤ t)
        (pow_nonneg segLimit_pos.le (l :: l' :: rest).length)
      rw [← hz]
      refine le_trans ?_ (le_abs_self _)
      linarith

/-- What `idio_bignum_integer_argument` and `idio_bignum_to_fixnum` make of an integer. -/
theorem cTypeValue_integer (h : IsInt bn z) (bufsiz : Nat) (t : CType) :
    cTypeValue bufsiz t bn =
      if bn.sig.length > 1 then
        if InFixnumRange z then .ok z
        else if bn.sig.length < t.words ∨
            (bn.sig.length = t.words ∧ bsaTop bn.sig ≤ t.first ∧ bsaTop bn.sig ≥ - t.first) then
          match valueSegs t.max bn.sig.dropLast.reverse |bsaTop bn.sig| with
          | none => .error (.bignumConversionError "significand overflow")
          | some v =>
              let v := if bsaTop bn.sig < 0 then - v else v
              if (bsaTop bn.sig < 0 ∧ v < 0) ∨ (bsaTop bn.sig ≥ 0 ∧ v ≥ 0) then .ok v
              else .error (tooLarge bufsiz t bn)
        else .error (tooLarge bufsiz t bn)
      else .ok (bsaTop bn.sig) := by
  have harg : integerArgument bn = .ok (some bn) := by rw [integerArgument, if_pos h.isInteger]
  rw [cTypeValue, harg, ok_bind]
  by_cases hlen : bn.sig.length > 1
  · by_cases hrange : InFixnumRange z
    · simp only [if_pos hlen, toFixnum_isInt h, if_pos hrange]
      rfl
    · simp only [if_pos hlen, toFixnum_isInt h, if_neg hrange]
      rfl
  · simp only [if_neg hlen]
    rfl

/-- **A bignum as a signed type**: its value unless the magnitude is above the greatest value. -/
theorem cTypeValue_spec (h : IsInt bn z) (bufsiz : Nat) (name : String) :
    cTypeValue bufsiz ⟨name, 2, 9, intmaxMax⟩ bn =
      if |z| ≤ intmaxMax then .ok z
      else if |z| < 10000000000000000000 then .error (.bignumConversionError "significand overflow")
      else .error (tooLarge bufsiz ⟨name, 2, 9, intmaxMax⟩ bn) := by
  have hL : segLimit = 1000000000000000000 := rfl
  rw [cTypeValue_integer h]
  rcases segments_isInt h with ⟨hs, hz⟩ | ⟨l, t, hs, hl, ht, hz⟩ | ⟨hlen, hz⟩
  · have hle : |z| ≤ intmaxMax := by rw [intmaxMax]; omega
    rw [if_pos hle, hs]
    rfl
  · have hrev : bn.sig.dropLast.reverse = [l] := by rw [hs]; rfl
    have htop : bsaTop bn.sig = t := by rw [hs]; rfl
    have hlen : bn.sig.length = 2 := by rw [hs]; rfl
    rw [hL] at hl hz
    have habs : |z| = l + 1000000000000000000 * |t| ∧ (t < 0 → z = - |z|) ∧ (0 ≤ t → z = |z|) := by
      rcases lt_or_gt_of_ne ht with hneg | hpos
      · rw [if_pos hneg] at hz
        rw [abs_of_neg hneg, abs_of_nonpos (by omega)]
        omega
      · rw [if_neg (by omega)] at hz
        rw [abs_of_pos hpos, abs_of_nonneg (by omega)]
        omega
    obtain ⟨hmag, hneg, hpos⟩ := habs
    rw [hlen, htop, hrev, if_pos (by decide)]
    by_cases hrange : InFixnumRange z
    · have hle : |z| ≤ 2305843009213693952 := by
        obtain ⟨hlo, hhi⟩ := hrange
        rw [fixnumMin] at hlo
        rw [fixnumMax] at hhi
        exact abs_le.mpr ⟨by omega, by omega⟩
      rw [if_pos hrange, if_pos (by rw [intmaxMax]; omega)]
    rw [if_neg hrange]
    by_cases h9 : |t| ≤ 9
    · -- the sum is tested before the sign is put on
      have ht0 := abs_nonneg t
      have hwrap : wrap64 (|t| * 1000000000000000000) = |t| * 1000000000000000000 :=
        wrap64_of_mem (by rw [intmaxMin]; omega) (by rw [intmaxMax]; omega)
      obtain ⟨h9lo, h9hi⟩ := abs_le.mp h9
      rw [if_pos (.inr ⟨rfl, h9hi, h9lo⟩)]
      simp only [valueSegs, hL, hwrap]
      by_cases hle : |z| ≤ intmaxMax
      · have hsum : |t| * 1000000000000000000 + l = |z| := by omega
        have hsign : (if t < 0 then - |z| else |z|) = z := by
          rcases lt_or_gt_of_ne ht with ht' | ht'
          · rw [if_pos ht', ← hneg ht']
          · rw [if_neg (by omega), ← hpos (by omega)]
        have hsame : (t < 0 ∧ z < 0) ∨ (t ≥ 0 ∧ z ≥ 0) := by
          rcases lt_or_gt_of_ne ht with ht' | ht'
          · exact .inl ⟨ht', by have := hneg ht'; omega⟩
          · exact .inr ⟨by omega, by have := hpos (by omega); omega⟩
        rw [if_neg (by omega), if_pos hle, hsum]
        simp only [hsign, if_pos hsame]
      · rw [if_pos (by omega), if_neg hle, if_pos (by omega)]
    · have hout : ¬ ((2 : Nat) < 2 ∨ (2 : Nat) = 2 ∧ t ≤ 9 ∧ t ≥ -9) := by
        rintro (h | ⟨-, hhi, hlo⟩)
        · exact absurd h (by decide)
        · exact h9 (abs_le.mpr ⟨hlo, hhi⟩)
      rw [if_neg hout, if_neg (by rw [intmaxMax]; omega), if_neg (by omega)]
  · rw [hL] at hz
    have hlong : ¬ (bn.sig.length < 2 ∨
        (bn.sig.length = 2 ∧ bsaTop bn.sig ≤ 9 ∧ bsaTop bn.sig ≥ -9)) := by omega
    have hbig : (10000000000000000000 : Int) ≤ |z| := le_trans (by decide) hz
    have hrange : ¬ InFixnumRange z := by
      rintro ⟨hlo, hhi⟩
      rw [fixnumMin] at hlo
      rw [fixnumMax] at hhi
      have hle : |z| ≤ 2305843009213693952 := abs_le.mpr ⟨by omega, by omega⟩
      omega
    rw [if_pos (by omega), if_neg hrange, if_neg hlong, if_neg (by rw [intmaxMax]; omega),
      if_neg (by omega)]

theorem cTypeUvalue_integer (h : IsInt bn z) (bufsiz : Nat) (t : CType) :
    cTypeUvalue bufsiz t bn =
      if bn.sig.length > 1 then
        if InFixnumRange z then .ok (unsigned64 z)
        else if bn.sig.length < t.words ∨
            (bn.sig.length = t.words ∧ bsaTop bn.sig ≤ t.first ∧ bsaTop bn.sig ≥ 0) then
          .ok (uvalueSegs bn.sig.dropLast.reverse (unsigned64 (bsaTop bn.sig)))
        else .error (tooLarge bufsiz t bn)
      else .ok (unsigned64 (bsaTop bn.sig)) := by
  have harg : integerArgument bn = .ok (some bn) := by rw [integerArgument, if_pos h.isInteger]
  rw [cTypeUvalue, harg, ok_bind]
  by_cases hlen : bn.sig.length > 1
  · by_cases hrange : InFixnumRange z
    · simp only [if_pos hlen, toFixnum_isInt h, if_pos hrange]
      rfl
    · simp only [if_pos hlen, toFixnum_isInt h, if_neg hrange]
      rfl
  · simp only [if_neg hlen]
    rfl

/-- **A bignum as an unsigned type**: what is a fixnum or below `19 * 10 ^ 18` is taken modulo
`2 ^ 64`, the sign of a fixnum or of a single segment along with it. -/
theorem cTypeUvalue_spec (h : IsInt bn z) (bufsiz : Nat) (name : String) :
    cTypeUvalue bufsiz ⟨name, 2, 18, 18446744073709551615⟩ bn =
      if fixnumMin ≤ z ∧ z < 19000000000000000000 then .ok (unsigned64 z)
      else .error (tooLarge bufsiz ⟨name, 2, 18, 18446744073709551615⟩ bn) := by
  have hL : segLimit = 1000000000000000000 := rfl
  rw [cTypeUvalue_integer h]
  rcases segments_isInt h with ⟨hs, hz⟩ | ⟨l, t, hs, hl, ht, hz⟩ | ⟨hlen, hz⟩
  · have hrange := abs_lt.mp hz
    have hin : fixnumMin ≤ z ∧ z < 19000000000000000000 := by
      rw [fixnumMin]
      omega
    rw [if_pos hin, hs]
    rfl
  · have hrev : bn.sig.dropLast.reverse = [l] := by rw [hs]; rfl
    have htop : bsaTop bn.sig = t := by rw [hs]; rfl
    have hlen : bn.sig.length = 2 := by rw [hs]; rfl
    rw [hL] at hl hz
    rw [hlen, htop, hrev, if_pos (by decide)]
    by_cases hrange : InFixnumRange z
    · have hin : fixnumMin ≤ z ∧ z < 19000000000000000000 := by
        refine ⟨hrange.1, ?_⟩
        have hhi := hrange.2
        rw [fixnumMax] at hhi
        omega
      rw [if_pos hrange, if_pos hin]
    rw [if_neg hrange]
    rw [InFixnumRange, fixnumMin, fixnumMax] at hrange
    by_cases hpos : t ≤ 18 ∧ t ≥ 0
    · -- the sum is not tested
      rw [if_neg (by omega)] at hz
      have hsum : uvalueSegs [l] (unsigned64 t) = unsigned64 z := by
        simp only [uvalueSegs, unsigned64, hL]
        omega
      rw [if_pos (.inr ⟨rfl, hpos⟩), if_pos ⟨by rw [fixnumMin]; omega, by omega⟩, hsum]
    · have hout : ¬ ((2 : Nat) < 2 ∨ (2 : Nat) = 2 ∧ t ≤ 18 ∧ t ≥ 0) := by omega
      have hfar : ¬ (fixnumMin ≤ z ∧ z < 19000000000000000000) := by
        rw [fixnumMin]
        split at hz <;> omega
      rw [if_neg hout, if_neg hfar]
  · rw [hL] at hz
    have hlong : ¬ (bn.sig.length < 2 ∨
        (bn.sig.length = 2 ∧ bsaTop bn.sig ≤ 18 ∧ bsaTop bn.sig ≥ 0)) := by omega
    have hfar : ¬ (fixnumMin ≤ z ∧ z < 19000000000000000000) := by
      rintro ⟨hlo, hhi⟩
      rw [fixnumMin] at hlo
      have hle : |z| ≤ 19000000000000000000 := abs_le.mpr ⟨by omega, by omega⟩
      omega
    have hrange : ¬ InFixnumRange z := by
      rintro ⟨hlo, hhi⟩
      rw [fixnumMax] at hhi
      exact hfar ⟨hlo, by omega⟩
    rw [if_pos (by omega), if_neg hrange, if_neg hlong, if_neg hfar]

/-! ## Exact or refused -/

/-- The types that there is a function for. -/
inductive CInt where
  | long
  | int64
  | uint64
  | ptrdiff
  | intptr
  | intmax
  | uintmax
  deriving DecidableEq, Repr

namespace CInt

/-- The functions, one for each type. -/
def value (bufsiz : Nat) : CInt → Bignum → Result Int
  | .long => longValue bufsiz
  | .int64 => int64TValue bufsiz
  | .uint64 => uint64TValue bufsiz
  | .ptrdiff => ptrdiffTValue bufsiz
  | .intptr => intptrTValue bufsiz
  | .intmax => intmaxTValue bufsiz
  | .uintmax => uintmaxTValue bufsiz

def name : CInt → String
  | .long => "long"
  | .int64 => "int64_t"
  | .uint64 => "uint64_t"
  | .ptrdiff => "ptrdiff_t"
  | .intptr => "intptr_t"
  | .intmax => "intmax_t"
  | .uintmax => "uintmax_t"

def unsigned : CInt → Bool
  | .uint64 => true
  | .uintmax => true
  | _ => false

/-- The least and the greatest value of the type. -/
def Representable (t : CInt) (z : Int) : Prop :=
  if t.unsigned then 0 ≤ z ∧ z ≤ 18446744073709551615 else intmaxMin ≤ z ∧ z ≤ intmaxMax

instance (t : CInt) (z : Int) : Decidable (t.Representable z) := by
  unfold Representable
  infer_instance

def ctype (t : CInt) : CType :=
  if t.unsigned then ⟨t.name, 2, 18, 18446744073709551615⟩ else ⟨t.name, 2, 9, intmaxMax⟩

variable {t : CInt}

theorem value_signed (h : t.unsigned = false) (bufsiz : Nat) :
    t.value bufsiz = cTypeValue bufsiz ⟨t.name, 2, 9, intmaxMax⟩ := by
  cases t with
  | uint64 => cases h
  | uintmax => cases h
  | _ => rfl

theorem value_unsigned (h : t.unsigned = true) (bufsiz : Nat) :
    t.value bufsiz = cTypeUvalue bufsiz ⟨t.name, 2, 18, 18446744073709551615⟩ := by
  cases t with
  | uint64 => rfl
  | uintmax => rfl
  | _ => cases h

/-- The value, if it is one of the type, and a conversion error if not. -/
def ExactOrRefused (bufsiz : Nat) (t : CInt) (bn : Bignum) (z : Int) : Prop :=
  if t.Representable z then t.value bufsiz bn = .ok z
  else ∃ msg, t.value bufsiz bn = .error (.bignumConversionError msg)

/-- The text of the bignum leaves room for the rest of a message in `BUFSIZ` characters. -/
def MessageFits (bufsiz : Nat) (t : CInt) (bn : Bignum) : Prop :=
  (asString bn).length + (" is too large for " ++ t.ctype.name ++ " (" ++
    toString t.ctype.max ++ ")").toList.length < bufsiz

/-- A signed type: any number but the least of the type.  An unsigned type: no fixnum below zero,
and none from `2 ^ 64` on that has a top segment of 18. -/
def Meets (bufsiz : Nat) (t : CInt) (bn : Bignum) (z : Int) : Prop :=
  if t.unsigned then
    ¬ (fixnumMin ≤ z ∧ z < 0) ∧ ¬ (18446744073709551615 < z ∧ z < 19000000000000000000) ∧
      (z < fixnumMin ∨ 19000000000000000000 ≤ z → MessageFits bufsiz t bn)
  else z ≠ intmaxMin ∧ (10000000000000000000 ≤ |z| → MessageFits bufsiz t bn)

variable {bufsiz : Nat} {bn : Bignum}

theorem messageFits_iff :
    MessageFits bufsiz t bn ↔ (tooLargeMessage t.ctype bn).length < bufsiz := by
  rw [tooLargeMessage, List.length_append]
  rfl

theorem refused_tooLarge :
    (∃ msg, (.error (tooLarge bufsiz t.ctype bn) : Result Int) =
      .error (.bignumConversionError msg)) ↔ MessageFits bufsiz t bn := by
  rw [messageFits_iff, tooLarge]
  by_cases hfits : (tooLargeMessage t.ctype bn).length < bufsiz
  · simp [hfits]
  · simp [hfits]

theorem exact_signed {z : Int} (h : IsInt bn z) (ht : t.unsigned = false) :
    ExactOrRefused bufsiz t bn z ↔ Meets bufsiz t bn z := by
  have hmax : intmaxMax = 9223372036854775807 := rfl
  have hmin : intmaxMin = -9223372036854775808 := rfl
  have hval : t.value bufsiz bn = _ :=
    (congrFun (value_signed ht bufsiz) bn).trans (cTypeValue_spec h bufsiz t.name)
  have htype : t.ctype = ⟨t.name, 2, 9, intmaxMax⟩ := by rw [ctype, ht]; rfl
  have hrep : t.Representable z ↔ intmaxMin ≤ z ∧ z ≤ intmaxMax := by simp [Representable, ht]
  have hmeets : Meets bufsiz t bn z ↔
      z ≠ intmaxMin ∧ (10000000000000000000 ≤ |z| → MessageFits bufsiz t bn) := by
    simp [Meets, ht]
  rw [← htype] at hval
  rw [ExactOrRefused, hmeets]
  rcases le_or_gt |z| intmaxMax with hle | hgt
  · have hrange := abs_le.mp hle
    rw [if_pos (hrep.mpr ⟨by omega, by omega⟩), hval, if_pos hle]
    exact iff_of_true rfl ⟨by omega, by omega⟩
  rw [if_neg (not_le.mpr hgt)] at hval
  rw [hval]
  by_cases hleast : z = intmaxMin
  · -- the least value of the type is put together below zero, and does not fit
    rw [if_pos (hrep.mpr ⟨by omega, by omega⟩)]
    refine iff_of_false ?_ fun hmeets => hmeets.1 hleast
    split <;> nofun
  · have hout : ¬ t.Representable z := by
      rw [hrep]
      rintro ⟨hlo, hhi⟩
      have hle := abs_le.mpr (show -intmaxMax ≤ z ∧ z ≤ intmaxMax from ⟨by omega, hhi⟩)
      omega
    rw [if_neg hout]
    by_cases h19 : |z| < 10000000000000000000
    · rw [if_pos h19]
      exact iff_of_true ⟨_, rfl⟩ ⟨hleast, by omega⟩
    · rw [if_neg h19, refused_tooLarge]
      exact ⟨fun hfits => ⟨hleast, fun _ => hfits⟩, fun hmeets => hmeets.2 (by omega)⟩

theorem exact_unsigned {z : Int} (h : IsInt bn z) (ht : t.unsigned = true) :
    ExactOrRefused bufsiz t bn z ↔ Meets bufsiz t bn z := by
  have hmin : fixnumMin = -2305843009213693952 := rfl
  have hval : t.value bufsiz bn = _ :=
    (congrFun (value_unsigned ht bufsiz) bn).trans (cTypeUvalue_spec h bufsiz t.name)
  have htype : t.ctype = ⟨t.name, 2, 18, 18446744073709551615⟩ := by rw [ctype, ht]; rfl
  have hrep : t.Representable z ↔ 0 ≤ z ∧ z ≤ 18446744073709551615 := by simp [Representable, ht]
  have hmeets : Meets bufsiz t bn z ↔ ¬ (fixnumMin ≤ z ∧ z < 0) ∧
      ¬ (18446744073709551615 < z ∧ z < 19000000000000000000) ∧
      (z < fixnumMin ∨ 19000000000000000000 ≤ z → MessageFits bufsiz t bn) := by
    rw [Meets, if_pos ht]
  rw [← htype] at hval
  rw [ExactOrRefused, hmeets, hval]
  by_cases hin : fixnumMin ≤ z ∧ z < 19000000000000000000
  · rw [if_pos hin]
    by_cases hexact : 0 ≤ z ∧ z ≤ 18446744073709551615
    · have hsame : unsigned64 z = z := Int.emod_eq_of_lt hexact.1 (by omega)
      rw [if_pos (hrep.mpr hexact), hsame]
      exact iff_of_true rfl ⟨by omega, by omega, by omega⟩
    · -- the sign is lost, or what is above `2 ^ 64`
      rw [if_neg (mt hrep.mp hexact)]
      exact iff_of_false nofun (by omega)
  · rw [if_neg hin, if_neg (mt hrep.mp (by omega)), refused_tooLarge]
    exact ⟨fun hfits => ⟨by omega, by omega, fun _ => hfits⟩, fun hmeets => hmeets.2.2 (by omega)⟩

end CInt

/-- **C integers of bignums.**  For each type, the value is exact or there is a conversion error
just if the number is none that `Meets` leaves out; and of the numbers made from an `intmax_t` all
but the least one come back. -/
theorem bignum_c_values (bufsiz : Nat) :
    (∀ (t : CInt) (bn : Bignum) (z : Int), IsInt bn z →
      (t.ExactOrRefused bufsiz bn z ↔ t.Meets bufsiz bn z)) ∧
    ∀ i, intmaxMin ≤ i → i ≤ intmaxMax →
      (intmaxTValue bufsiz (integerIntmaxT i) = .ok i ↔ i ≠ intmaxMin) := by
  have hexact (t : CInt) (bn : Bignum) (z : Int) (h : IsInt bn z) :
      t.ExactOrRefused bufsiz bn z ↔ t.Meets bufsiz bn z := by
    cases ht : t.unsigned with
    | false => exact CInt.exact_signed h ht
    | true => exact CInt.exact_unsigned h ht
  refine ⟨hexact, fun i hlo hhi => ?_⟩
  have hmax : intmaxMax = 9223372036854775807 := rfl
  have hmin : intmaxMin = -9223372036854775808 := rfl
  have h := hexact .intmax _ i (integerIntmaxT_isInt hlo hhi)
  have hrep : CInt.intmax.Representable i := ⟨hlo, hhi⟩
  rw [CInt.ExactOrRefused, if_pos hrep] at h
  refine h.trans ⟨fun hmeets => hmeets.1, fun hne => ⟨hne, fun hbig => ?_⟩⟩
  have hle := abs_le.mpr (show -9223372036854775808 ≤ i ∧ i ≤ 9223372036854775808 by omega)
  omega

theorem bignum_c_values_large :
    CInt.int64.ExactOrRefused 8192 (integerIntmaxT 9000000000000000000) 9000000000000000000 := by
  have h := integerIntmaxT_isInt (i := 9000000000000000000) (by decide) (by decide)
  refine ((bignum_c_values 8192).1 .int64 _ _ h).mpr ⟨by decide, fun hbig => ?_⟩
  exact absurd hbig (by decide)

/-- The least `intmax_t` does not come back, and the bignum of `-1` is the greatest `uint64_t`. -/
theorem bignum_c_values_fail :
    (intmaxTValue 8192 (integerIntmaxT intmaxMin) =
        .error (.bignumConversionError "significand overflow") ∧
      ¬ CInt.intmax.ExactOrRefused 8192 (integerIntmaxT intmaxMin) intmaxMin) ∧
    uint64TValue 8192 (integerIntmaxT (-1)) = .ok 18446744073709551615 ∧
      ¬ CInt.uint64.ExactOrRefused 8192 (integerIntmaxT (-1)) (-1) := by
  have hleast := integerIntmaxT_isInt (le_refl intmaxMin) (by decide)
  have hone := integerIntmaxT_isInt (i := -1) (by decide) (by decide)
  refine ⟨⟨?_, ?_⟩, ?_, ?_⟩
  · exact (cTypeValue_spec hleast 8192 "intmax_t").trans rfl
  · rw [CInt.exact_signed hleast rfl]
    exact fun hmeets => hmeets.1 rfl
  · exact (cTypeUvalue_spec hone 8192 "uint64_t").trans rfl
  · rw [CInt.exact_unsigned hone rfl]
    exact fun hmeets => hmeets.1 (by decide)

/-- The exponent part of a real is read with the same function. -/
theorem int64TValue_eq {bufsiz : Nat} (h : IsInt bn z) (hfits : CInt.int64.MessageFits bufsiz bn) :
    int64TValue bufsiz bn = int64Value bn := by
  have hsegs : ∀ sigs v, valueSegs intmaxMax sigs v = int64Segs sigs v := by
    intro sigs
    induction sigs with
    | nil => exact fun v => rfl
    | cons sig sigs ih =>
      intro v
      rw [valueSegs, int64Segs, ih]
  have hmsg : tooLarge bufsiz CInt.int64.ctype bn = .bignumConversionError
      (String.ofList (asString bn) ++ " is too large for int64_t (9223372036854775807)") := by
    have hlen : (tooLargeMessage CInt.int64.ctype bn).length < bufsiz :=
      CInt.messageFits_iff.mp hfits
    have htail : (" is too large for " ++ CInt.int64.ctype.name ++ " (" ++
        toString CInt.int64.ctype.max ++ ")") = " is too large for int64_t (9223372036854775807)" := by
      decide
    rw [tooLarge, if_pos hlen, tooLargeMessage, String.ofList_append, htail, String.ofList_toList]
  have hval : int64TValue bufsiz bn = _ := cTypeValue_integer h bufsiz CInt.int64.ctype
  rw [hval, hmsg, int64Value, toFixnum_isInt h]
  by_cases hrange : InFixnumRange z
  · simp only [if_pos hrange]
  · simp only [if_neg hrange, CInt.ctype, CInt.unsigned, Bool.false_eq_true, if_false, hsegs]
    rfl

end Idio
