/-
  Division.lean --- `abs`, `quotient`, `remainder` and `modulo`.

  A fixnum that is computed from fixnums goes through `idio_fixnum`, which has no
  bignum for a value outside the fixnum range and raises a condition.  The only such
  values are the absolute value of the least fixnum and its quotient by -1, so those
  two calls raise, and every other call gives the number in canonical form.
-/
import Idio.Arithmetic
import Idio.Comparison
import Idio.Bignum.Divide
import Idio.Bitset.Read

set_option autoImplicit false

namespace Idio

open Bignum

/-! ## The primitives -/

/-- `idio_fixnum`. -/
def idioFixnum (i : Int) : Result Num :=
  if i ≤ fixnumMax ∧ i ≥ fixnumMin then .ok (.fixnum i)
  else .error (.fixnumConversionError (toString i ++ " too large"))

/-- `idio_fixnum_primitive_abs`. -/
def fixnumPrimitiveAbs (a : Int) : Result Num :=
  if a < 0 then idioFixnum (- a) else .ok (.fixnum a)

/-- `abs`. -/
def Num.abs : Num → Result Num
  | .bignum bn => .ok (toFixnum (realAbs bn))
  | .fixnum a => fixnumPrimitiveAbs a

/-- `idio_fixnum_primitive_remainder`. -/
def fixnumPrimitiveRemainder (a b : Int) : Result Num :=
  if b = 0 then .error (.divideByZero "fixnum divide by zero")
  else idioFixnum (a.tmod b)

/-- `idio_fixnum_primitive_quotient`. -/
def fixnumPrimitiveQuotient (a b : Int) : Result Num :=
  if b = 0 then .error (.divideByZero "fixnum divide by zero")
  else idioFixnum (a.tdiv b)

/-- What `idio_bignum_primitive_quotient` and `idio_bignum_primitive_remainder` share: the
arguments are made integers and divided. -/
def bignumPrimitiveDivide (func : String) (a b : Bignum) : Result (Bignum × Bignum) := do
  let some ia ← integerArgument a
    | .error (.paramValue func "a" "is not a integer bignum")
  let some ib ← integerArgument b
    | .error (.paramValue func "b" "is not a integer bignum")
  divide ia ib

/-- `idio_bignum_primitive_quotient`. -/
def bignumPrimitiveQuotient (a b : Bignum) : Result Bignum :=
  (bignumPrimitiveDivide "quotient" a b).map (·.1)

/-- `idio_bignum_primitive_remainder`. -/
def bignumPrimitiveRemainder (a b : Bignum) : Result Bignum :=
  (bignumPrimitiveDivide "remainder" a b).map (·.2)

/-- What `quotient` and `remainder` share: two fixnums are divided as they are, else both
arguments as bignums. -/
def divisionPrimitive (fixnumPrimitive : Int → Int → Result Num)
    (bignumPrimitive : Bignum → Bignum → Result Bignum) : Num → Num → Result Num
  | .fixnum a, .fixnum b => fixnumPrimitive a b
  | a, b => (bignumPrimitive a.toBignum b.toBignum).map toFixnum

/-- `quotient`. -/
def Num.quotient : Num → Num → Result Num :=
  divisionPrimitive fixnumPrimitiveQuotient bignumPrimitiveQuotient

/-- `remainder`. -/
def Num.remainder : Num → Num → Result Num :=
  divisionPrimitive fixnumPrimitiveRemainder bignumPrimitiveRemainder

/-- `zero?`. -/
def Num.zeroP : Num → Bool
  | .fixnum v => decide (v = 0)
  | .bignum bn => Bignum.zeroP bn

/-- `IDIO_DEFINE_ARITHMETIC_BINARY_CMP_PRIMITIVE`. -/
def arithmeticBinaryCmp (fixnumCmp : Int → Int → Bool)
    (bignumCmp : Bignum → Bignum → Result Bool) (n1 n2 : Num) : Result Bool :=
  if n1.isBignum || n2.isBignum then cmpChain bignumCmp n1.toBignum [n2.toBignum]
  else cmpChain (fun c h => .ok (fixnumCmp c h)) n1.fixnumVal [n2.fixnumVal]

/-- `binary-lt`, which the infix `lt` becomes. -/
def Num.binaryLt : Num → Num → Result Bool :=
  arithmeticBinaryCmp (fun c h => decide (c < h)) realLtP

/-- `negative?`. -/
def Num.negativeP (x : Num) : Result Bool := x.binaryLt (.fixnum 0)

/-- `modulo`. -/
def Num.modulo (a b : Num) : Result Num := do
  let rem ← a.remainder b
  if rem.zeroP then pure (.fixnum 0)
  else if (← a.negativeP) = (← b.negativeP) then pure rem
  else Num.add [b, rem]

/-! ## Results in canonical form -/

/-- An integer, and a fixnum exactly when there is one for it. -/
def Number.Canonical (r : Number) : Prop :=
  r.IsInteger ∧ (r.IsFixnum ↔ InFixnumRange r.intValue)

/-- The call returns the integer `n` in canonical form. -/
def Gives (res : Result Num) (n : Int) : Prop :=
  ∃ r : Number, res = .ok r.toNum ∧ r.Canonical ∧ r.intValue = n

theorem CanonicalResult.gives {n : Int} {res : Result Num} (h : CanonicalResult n res) :
    Gives res n := by
  obtain ⟨r, hr, hint, hval, hfix⟩ := h
  exact ⟨r, hr, ⟨hint, hval ▸ hfix⟩, hval⟩

theorem gives_of_bignum {n : Int} {res : Result Bignum} {bn : Bignum} (hrun : res = .ok bn)
    (hi : IsInt bn n) : Gives (res.map toFixnum) n :=
  CanonicalResult.gives (outcome_of_bignum hrun hi)

theorem canonical_fixnum {v : Int} (h : InFixnumRange v) : (Number.fixnum v h).Canonical :=
  ⟨trivial, fun _ => h, fun _ => trivial⟩

theorem gives_fixnum {v : Int} (h : InFixnumRange v) : Gives (.ok (.fixnum v)) v :=
  ⟨.fixnum v h, rfl, canonical_fixnum h, rfl⟩

theorem not_gives_error (e : Fault) (n : Int) : ¬ Gives (.error e) n := by
  rintro ⟨r, hr, -⟩
  cases hr

/-- With two arguments no running value but the last can leave the range. -/
theorem settled_pair (op : Int → Int → Int) (x y : Number) (hx : x.IsInteger) :
    Settled op x [y] := by
  cases x with
  | fixnum v hv => exact .inr fun hin => ⟨hv, hin⟩
  | integer a => exact .inl ⟨.integer a, List.mem_cons_self, fun h => h⟩
  | real r => exact hx.elim

section Integers

variable {x y : Number}

theorem add_gives (hx : x.IsInteger) (hy : y.IsInteger) :
    Gives (Num.add [x.toNum, y.toNum]) (x.intValue + y.intValue) :=
  ((@add_exact x [y] (by simp [hx, hy])).2.mpr (settled_pair _ x y hx)).gives

theorem zeroP_integer (hx : x.IsInteger) : x.toNum.zeroP = decide (x.intValue = 0) := by
  cases x with
  | fixnum v hv => rfl
  | integer a => exact a.isInt.zeroP_eq
  | real r => exact hx.elim

/-- The binary primitive is the primitive with one more argument. -/
theorem arithmeticBinaryCmp_eq (f : Int → Int → Bool) (g : Bignum → Bignum → Result Bool)
    (n1 n2 : Num) : arithmeticBinaryCmp f g n1 n2 = arithmeticCmp f g n1 [n2] := by
  simp [arithmeticBinaryCmp, arithmeticCmp]

theorem binaryLt_integers (hx : x.IsInteger) (hy : y.IsInteger) :
    x.toNum.binaryLt y.toNum = .ok (decide (x.intValue < y.intValue)) := by
  have hexact : ∀ a ∈ [x, y], a.Exact := by
    intro a ha
    have hint : a.IsInteger := by
      rcases List.mem_pair.mp ha with rfl | rfl
      · exact hx
      · exact hy
    cases a with
    | fixnum v hv => trivial
    | integer b => trivial
    | real r => exact hint.elim
  have hcomparable : Comparable [x, y] := .inl (by simp [hx, hy])
  have hlt := (comparison_primitives hcomparable hexact).1
  rw [Num.binaryLt, arithmeticBinaryCmp_eq]
  refine hlt.trans ?_
  rw [List.map_cons, List.map_cons, List.map_nil, hx.value_eq, hy.value_eq]
  simp

theorem negativeP_integer (hx : x.IsInteger) :
    x.toNum.negativeP = .ok (decide (x.intValue < 0)) :=
  binaryLt_integers (y := .fixnum 0 (by decide)) hx trivial

theorem bignumPrimitiveDivide_integers (func : String) {a b : Bignum} {m n : Int} (ha : IsInt a m)
    (hb : IsInt b n) (hn : n ≠ 0) :
    ∃ q r, bignumPrimitiveDivide func a b = .ok (q, r) ∧ IsInt q (m.tdiv n) ∧
      IsInt r (m.tmod n) := by
  obtain ⟨q, r, hrun, hq, hr⟩ := divide_isInt ha hb hn
  refine ⟨q, r, ?_, hq, hr⟩
  rw [bignumPrimitiveDivide, integerArgument, if_pos ha.isInteger, ok_bind]
  show (integerArgument b >>= _) = _
  rw [integerArgument, if_pos hb.isInteger, ok_bind]
  exact hrun

/-- A fixnum in the range, or the error. -/
theorem idioFixnum_gives (i : Int) : Gives (idioFixnum i) i ↔ InFixnumRange i := by
  rw [idioFixnum]
  split
  · rename_i h
    exact ⟨fun _ => ⟨h.2, h.1⟩, fun h => gives_fixnum h⟩
  · rename_i h
    exact ⟨fun hg => absurd hg (not_gives_error _ _), fun hr => absurd ⟨hr.2, hr.1⟩ h⟩

/-- What a division primitive gives: its value, but for two fixnums only if that is a
fixnum. -/
theorem divisionPrimitive_gives {fixnumPrimitive : Int → Int → Result Num}
    {bignumPrimitive : Bignum → Bignum → Result Bignum} (value : Int → Int → Int)
    (hfixnum : ∀ a b, b ≠ 0 → fixnumPrimitive a b = idioFixnum (value a b))
    (hbignum : ∀ {a b : Bignum} {m n : Int}, IsInt a m → IsInt b n → n ≠ 0 →
      ∃ r, bignumPrimitive a b = .ok r ∧ IsInt r (value m n))
    (hx : x.IsInteger) (hy : y.IsInteger) (h0 : y.intValue ≠ 0) :
    Gives (divisionPrimitive fixnumPrimitive bignumPrimitive x.toNum y.toNum)
        (value x.intValue y.intValue) ↔
      (x.IsFixnum → y.IsFixnum → InFixnumRange (value x.intValue y.intValue)) := by
  have hbig : Gives ((bignumPrimitive x.toNum.toBignum y.toNum.toBignum).map toFixnum)
      (value x.intValue y.intValue) := by
    obtain ⟨r, hrun, hr⟩ := hbignum hx.isInt hy.isInt h0
    exact gives_of_bignum hrun hr
  cases x with
  | real r => exact hx.elim
  | integer a => exact ⟨fun _ h => h.elim, fun _ => by cases y <;> exact hbig⟩
  | fixnum v hv =>
    cases y with
    | real r => exact hy.elim
    | integer b => exact ⟨fun _ _ h => h.elim, fun _ => hbig⟩
    | fixnum w hw =>
      rw [show divisionPrimitive fixnumPrimitive bignumPrimitive (Number.fixnum v hv).toNum
        (Number.fixnum w hw).toNum = fixnumPrimitive v w from rfl, hfixnum v w h0]
      exact (idioFixnum_gives _).trans ⟨fun h _ _ => h, fun h => h trivial trivial⟩

theorem tmod_inFixnumRange {v w : Int} (hv : InFixnumRange v) : InFixnumRange (v.tmod w) := by
  have hle : (v.tmod w).natAbs ≤ v.natAbs := by
    rw [Int.natAbs_tmod]
    exact Nat.mod_le _ _
  have hpos : 0 ≤ v → 0 ≤ v.tmod w := Int.tmod_nonneg w
  have hneg : 0 ≤ - v → 0 ≤ - v.tmod w := by
    rw [← Int.neg_tmod]
    exact Int.tmod_nonneg w
  simp only [InFixnumRange, fixnumMin, fixnumMax] at *
  omega

theorem remainder_gives (hx : x.IsInteger) (hy : y.IsInteger) (h0 : y.intValue ≠ 0) :
    Gives (x.toNum.remainder y.toNum) (x.intValue.tmod y.intValue) := by
  refine (divisionPrimitive_gives Int.tmod (fun a b hb => if_neg hb) ?_ hx hy h0).mpr ?_
  · intro a b m n ha hb hn
    obtain ⟨q, r, hrun, -, hr⟩ := bignumPrimitiveDivide_integers "remainder" ha hb hn
    exact ⟨r, by rw [bignumPrimitiveRemainder, hrun]; rfl, hr⟩
  · intro hfix _
    exact tmod_inFixnumRange (hfix.fixnumVal_eq.2)

/-- The only quotient of fixnums that is no fixnum. -/
theorem tdiv_inFixnumRange {v w : Int} (hv : InFixnumRange v) :
    InFixnumRange (v.tdiv w) ↔ ¬ (v = fixnumMin ∧ w = -1) := by
  have hdiv : (v.tdiv w).natAbs = v.natAbs / w.natAbs := Int.natAbs_tdiv v w
  constructor
  · rintro h ⟨rfl, rfl⟩
    exact absurd h (by decide)
  · intro h
    by_contra hout
    have hle : v.natAbs / w.natAbs ≤ v.natAbs := Nat.div_le_self _ _
    -- The absolute value has not become smaller, so the divisor is a unit.
    have hmin : v = fixnumMin ∧ v.tdiv w = - fixnumMin := by
      simp only [InFixnumRange, fixnumMin, fixnumMax] at *
      omega
    have hunit : ¬ 1 < w.natAbs := fun hw => by
      have hlt := Nat.div_lt_self (show 0 < v.natAbs by rw [hmin.1]; decide) hw
      rw [← hdiv, hmin.2, hmin.1] at hlt
      exact absurd hlt (by decide)
    obtain rfl | rfl | rfl : w = 0 ∨ w = 1 ∨ w = -1 := by omega
    · rw [Int.tdiv_zero] at hmin
      exact absurd hmin.2 (by decide)
    · rw [Int.tdiv_one, hmin.1] at hmin
      exact absurd hmin.2 (by decide)
    · exact h ⟨hmin.1, rfl⟩

theorem quotient_gives (hx : x.IsInteger) (hy : y.IsInteger) (h0 : y.intValue ≠ 0) :
    Gives (x.toNum.quotient y.toNum) (x.intValue.tdiv y.intValue) ↔
      ¬ (x.toNum = .fixnum fixnumMin ∧ y.toNum = .fixnum (-1)) := by
  refine (divisionPrimitive_gives Int.tdiv (fun a b hb => if_neg hb) ?_ hx hy h0).trans ?_
  · intro a b m n ha hb hn
    obtain ⟨q, r, hrun, hq, -⟩ := bignumPrimitiveDivide_integers "quotient" ha hb hn
    exact ⟨q, by rw [bignumPrimitiveQuotient, hrun]; rfl, hq⟩
  · cases x with
    | real r => exact hx.elim
    | integer a => exact ⟨fun _ h => Num.noConfusion h.1, fun _ h => h.elim⟩
    | fixnum v hv =>
      cases y with
      | real r => exact hy.elim
      | integer b => exact ⟨fun _ h => Num.noConfusion h.2, fun _ _ h => h.elim⟩
      | fixnum w hw =>
        have hrange := @tdiv_inFixnumRange v w hv
        simp only [Number.IsFixnum, Number.intValue, Number.toNum, Num.fixnum.injEq,
          true_implies] at *
        exact hrange

theorem abs_gives (hx : x.IsInteger) :
    Gives x.toNum.abs |x.intValue| ↔ x.toNum ≠ .fixnum fixnumMin := by
  cases x with
  | real r => exact hx.elim
  | integer a =>
    have habs : realAbs a.bn = Bignum.abs a.bn := if_pos a.isInt.isInteger
    refine ⟨fun _ h => Num.noConfusion h, fun _ => ?_⟩
    show Gives (.ok (toFixnum (realAbs a.bn))) _
    rw [habs]
    exact @gives_of_bignum _ (.ok (Bignum.abs a.bn)) _ rfl a.isInt.abs
  | fixnum v hv =>
    show Gives (fixnumPrimitiveAbs v) |v| ↔ _
    rw [fixnumPrimitiveAbs]
    split
    · rename_i hneg
      have hlo : fixnumMin ≤ v := hv.1
      rw [abs_of_neg hneg, idioFixnum_gives]
      simp only [Number.toNum, InFixnumRange, fixnumMin, fixnumMax, ne_eq, Num.fixnum.injEq] at *
      omega
    · rename_i hpos
      rw [abs_of_nonneg (not_lt.mp hpos)]
      refine ⟨fun _ h => ?_, fun _ => gives_fixnum hv⟩
      cases h
      exact hpos (by decide)

/-- The remainder, or the divisor added to it where the signs are different. -/
theorem fmod_cases (m n : Int) :
    m.fmod n = if m.tmod n = 0 then 0
      else if decide (m < 0) = decide (n < 0) then m.tmod n else n + m.tmod n := by
  rw [Int.fmod_eq_tmod]
  by_cases hzero : m.tmod n = 0
  · rw [if_pos (Int.dvd_of_tmod_eq_zero hzero), if_pos hzero, hzero, add_zero]
  · rw [if_neg fun h => hzero (Int.tmod_eq_zero_of_dvd h), if_neg hzero]
    simp only [decide_eq_decide]
    split_ifs <;> omega

theorem modulo_gives (hx : x.IsInteger) (hy : y.IsInteger) (h0 : y.intValue ≠ 0) :
    Gives (x.toNum.modulo y.toNum) (x.intValue.fmod y.intValue) := by
  obtain ⟨r, hrun, hr, hval⟩ := remainder_gives hx hy h0
  rw [Num.modulo, hrun, ok_bind, zeroP_integer hr.1, negativeP_integer hx, negativeP_integer hy,
    hval, fmod_cases]
  by_cases hzero : x.intValue.tmod y.intValue = 0
  · simp only [hzero, decide_true, if_true]
    exact gives_fixnum (by decide)
  · simp only [hzero, decide_false, Bool.false_eq_true, if_false, ok_bind]
    split
    · exact ⟨r, rfl, hr, hval⟩
    · rw [← hval]
      exact add_gives hy hr.1

end Integers

end Idio
