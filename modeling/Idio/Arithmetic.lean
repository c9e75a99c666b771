/-
  Arithmetic.lean --- the generic `+`, `-` and `*`.

  Arguments that are all fixnums are folded in a machine word, with a test for
  overflow at every step; the first overflow turns the running value and the
  arguments still to come into bignums and goes on with those.  With a bignum among
  the arguments all of them become bignums at once, and the result is turned into a
  fixnum where that is possible.

  Both ways are exact on integers.  The first one does not turn its result into a
  fixnum, so `fixnumAddLoop_spec` and its companions also say that the result of a list
  of fixnums is a fixnum exactly when no running value has left the range, whatever the
  value at the end.
-/
import Idio.Number

set_option autoImplicit false

namespace Idio

open Bignum

/-! ## Bignum primitives -/

/-- `idio_bignum_primitive_add`. -/
def bignumPrimitiveAdd (args : List Bignum) : Result Bignum :=
  args.foldlM realAdd (integerIntmaxT 0)

/-- `idio_bignum_primitive_subtract`: `(- 6) => 0-6`. -/
def bignumPrimitiveSubtract (h : Bignum) (t : List Bignum) : Result Bignum :=
  if t = [] then .ok (if h.flags.integer then negate h else realNegate h)
  else t.foldlM realSubtract h

/-- `idio_bignum_primitive_multiply`. -/
def bignumPrimitiveMultiply (args : List Bignum) : Result Bignum :=
  args.foldlM realMultiply (integerIntmaxT 1)

/-! ## Fixnum primitives -/

/-- The loop of `idio_fixnum_primitive_add`.  The sum of two fixnums does not
overflow the word. -/
def fixnumAddLoop : Int → List Int → Result Num
  | ir, [] => .ok (.fixnum ir)
  | ir, ih :: args =>
      if ir + ih > fixnumMax ∨ ir + ih < fixnumMin then
        (bignumPrimitiveAdd (((ir + ih) :: args).map integerIntmaxT)).map .bignum
      else fixnumAddLoop (ir + ih) args

/-- `idio_fixnum_primitive_add`. -/
def fixnumPrimitiveAdd (args : List Int) : Result Num := fixnumAddLoop 0 args

/-- The loop of `idio_fixnum_primitive_subtract` after the first argument. -/
def fixnumSubtractLoop : Int → List Int → Result Num
  | ir, [] =>
      .ok (if ir > fixnumMax ∨ ir < fixnumMin then .bignum (integerIntmaxT ir) else .fixnum ir)
  | ir, ih :: args =>
      if ir - ih > fixnumMax ∨ ir - ih < fixnumMin then
        -- A single argument would be negated.
        if args = [] then .ok (.bignum (integerIntmaxT (ir - ih)))
        else
          (bignumPrimitiveSubtract (integerIntmaxT (ir - ih)) (args.map integerIntmaxT)).map
            .bignum
      else fixnumSubtractLoop (ir - ih) args

/-- `idio_fixnum_primitive_subtract`. -/
def fixnumPrimitiveSubtract (n1 : Int) (args : List Int) : Result Num :=
  if args = [] then fixnumSubtractLoop (- n1) []
  else fixnumSubtractLoop n1 args

/-- `while (itmp >>= 1) bits++`; a word has at most 64 bits. -/
def msbLoop : Nat → Int → Nat
  | 0, _ => 0
  | fuel + 1, i => if i / 2 = 0 then 0 else msbLoop fuel (i / 2) + 1

/-- `v & IDIO_FIXNUM_HALFWORD_MASK`: more than half a word. -/
def halfwordMask (v : Int) : Bool := !(decide (0 ≤ v) && decide (v < 4294967296))

/-- The precheck of `idio_fixnum_primitive_multiply`: the bits of the factors add
up to a word. -/
def multiplyPrecheck (ir ih : Int) : Bool :=
  (halfwordMask ir || halfwordMask ih) && decide (msbLoop 64 |ir| + msbLoop 64 |ih| ≥ 62)

/-- The check of the product `im` against the range and the predicted sign. -/
def multiplyCheck (ir ih im : Int) : Bool :=
  let neg := decide (ir < 0) != decide (ih < 0)
  decide (im > fixnumMax) || decide (im < fixnumMin) || (neg && decide (im > 0)) ||
    (!neg && decide (im < 0))

/-- The loop of `idio_fixnum_primitive_multiply` after the first argument. -/
def fixnumMultiplyLoop : Int → List Int → Result Num
  | ir, [] => .ok (.fixnum ir)
  | ir, ih :: args =>
      if multiplyPrecheck ir ih then
        (bignumPrimitiveMultiply ((ih :: ir :: args).map integerIntmaxT)).map .bignum
      else if multiplyCheck ir ih (wrap64 (ir * ih)) then
        (bignumPrimitiveMultiply ((ir :: ih :: args).map integerIntmaxT)).map .bignum
      else fixnumMultiplyLoop (wrap64 (ir * ih)) args

/-- `idio_fixnum_primitive_multiply`. -/
def fixnumPrimitiveMultiply : List Int → Result Num
  | [] => .ok (.fixnum 1)
  | ih :: args => fixnumMultiplyLoop ih args

/-! ## The generic primitives -/

/-- `IDIO_DEFINE_ARITHMETIC_PRIMITIVE0V`. -/
def arithmetic0V (fixnumPrimitive : List Int → Result Num)
    (bignumPrimitive : List Bignum → Result Bignum) (args : List Num) : Result Num :=
  if args.any Num.isBignum then (bignumPrimitive (args.map Num.toBignum)).map toFixnum
  else fixnumPrimitive (args.map Num.fixnumVal)

/-- `IDIO_DEFINE_ARITHMETIC_PRIMITIVE1V`. -/
def arithmetic1V (fixnumPrimitive : Int → List Int → Result Num)
    (bignumPrimitive : Bignum → List Bignum → Result Bignum) (n1 : Num) (args : List Num) :
    Result Num :=
  if n1.isBignum || args.any Num.isBignum then
    (bignumPrimitive n1.toBignum (args.map Num.toBignum)).map toFixnum
  else fixnumPrimitive n1.fixnumVal (args.map Num.fixnumVal)

/-- `+`. -/
def Num.add : List Num → Result Num := arithmetic0V fixnumPrimitiveAdd bignumPrimitiveAdd

/-- `-`. -/
def Num.subtract : Num → List Num → Result Num :=
  arithmetic1V fixnumPrimitiveSubtract bignumPrimitiveSubtract

/-- `*`. -/
def Num.multiply : List Num → Result Num :=
  arithmetic0V fixnumPrimitiveMultiply bignumPrimitiveMultiply

/-! ## Bignum primitives on integers -/

variable {a b : Bignum} {y x : Int}

theorem realAdd_integers (ha : IsInt a x) (hb : IsInt b y) :
    ∃ r, realAdd a b = .ok r ∧ IsInt r (x + y) := by
  rw [realAdd, ha.isInteger, hb.isInteger, Bool.and_self, if_pos rfl]
  exact add_isInt ha hb

theorem realSubtract_integers (ha : IsInt a x) (hb : IsInt b y) :
    ∃ r, realSubtract a b = .ok r ∧ IsInt r (x - y) := by
  rw [realSubtract, hb.isInteger, if_pos rfl, sub_eq_add_neg]
  exact realAdd_integers ha hb.negate

theorem realMultiply_integers (ha : IsInt a x) (hb : IsInt b y) :
    ∃ r, realMultiply a b = .ok r ∧ IsInt r (x * y) := by
  rw [realMultiply, ha.isInteger, hb.isInteger, Bool.and_self, if_pos rfl]
  exact multiply_isInt ha hb

variable {op : Int → Int → Int}

/-- A fold of an operation that is exact on integers is exact on integers. -/
theorem foldlM_isInt {f : Bignum → Bignum → Result Bignum}
    (hf : ∀ {a b : Bignum} {x y : Int}, IsInt a x → IsInt b y →
      ∃ r, f a b = .ok r ∧ IsInt r (op x y)) {bs : List Bignum} {ns : List Int}
    (hbs : List.Forall₂ IsInt bs ns) :
    ∀ {a : Bignum} {x : Int}, IsInt a x →
      ∃ r, bs.foldlM f a = .ok r ∧ IsInt r (ns.foldl op x) := by
  induction hbs with
  | nil => exact fun ha => ⟨_, rfl, ha⟩
  | cons hb _ ih =>
    intro a x ha
    obtain ⟨r, hr, hi⟩ := hf ha hb
    obtain ⟨s, hs, hsi⟩ := ih hi
    refine ⟨s, ?_, hsi⟩
    rw [List.foldlM_cons, hr]
    exact hs

variable {vs : List Int}

theorem forall₂_integerIntmaxT (h : ∀ v ∈ vs, intmaxMin ≤ v ∧ v ≤ intmaxMax) :
    List.Forall₂ IsInt (vs.map integerIntmaxT) vs := by
  induction vs with
  | nil => exact .nil
  | cons v vs ih =>
    have hv := h v (by simp)
    exact .cons (integerIntmaxT_isInt hv.1 hv.2) (ih fun w hw => h w (by simp [hw]))

/-! ## Results -/

/-- The result stands for the integer `n`. -/
def Num.StandsFor (r : Num) (n : Int) : Prop :=
  match r with
  | .fixnum v => v = n ∧ InFixnumRange n
  | .bignum bn => IsInt bn n

/-- Every running value of the fold of `op` over the list, from `v` on, is in the
fixnum range. -/
def StaysInRange (op : Int → Int → Int) : Int → List Int → Prop
  | v, [] => InFixnumRange v
  | v, w :: ws => InFixnumRange v ∧ StaysInRange op (op v w) ws

theorem StaysInRange.head {op : Int → Int → Int} {v : Int} {ws : List Int}
    (h : StaysInRange op v ws) : InFixnumRange v := by
  cases ws with
  | nil => exact h
  | cons w ws => exact h.1

variable {v : Int}

theorem StaysInRange.foldl {ws : List Int} (h : StaysInRange op v ws) :
    InFixnumRange (ws.foldl op v) := by
  induction ws generalizing v with
  | nil => exact h
  | cons w ws ih => exact ih h.2

theorem not_inFixnumRange (h : ¬ (v > fixnumMax ∨ v < fixnumMin)) : InFixnumRange v := by
  unfold InFixnumRange
  omega

theorem InFixnumRange.intmax (h : InFixnumRange v) : intmaxMin ≤ v ∧ v ≤ intmaxMax := by
  simp only [InFixnumRange, fixnumMin, fixnumMax, intmaxMin, intmaxMax] at *
  omega

/-- The running value that left the range and the fixnums to come are words. -/
theorem words_of_step {w : Int} (hw : intmaxMin ≤ w ∧ w ≤ intmaxMax)
    (hvs : ∀ u ∈ v :: vs, InFixnumRange u) : ∀ u ∈ w :: vs, intmaxMin ≤ u ∧ u ≤ intmaxMax := by
  intro u hu
  rcases List.mem_cons.mp hu with rfl | hu
  · exact hw
  · exact (hvs u (by simp [hu])).intmax

variable {ir : Int}

/-- `+` on fixnums: exact, and a fixnum exactly when no running value leaves the
range. -/
theorem fixnumAddLoop_spec (hir : InFixnumRange ir) (hvs : ∀ v ∈ vs, InFixnumRange v) :
    ∃ r, fixnumAddLoop ir vs = .ok r ∧ r.StandsFor (vs.foldl (· + ·) ir) ∧
      (r.isBignum = false ↔ StaysInRange (· + ·) ir vs) := by
  induction vs generalizing ir with
  | nil => exact ⟨.fixnum ir, rfl, ⟨rfl, hir⟩, by simpa [Num.isBignum, StaysInRange] using hir⟩
  | cons v vs ih =>
    have hv := hvs v (by simp)
    rw [fixnumAddLoop]
    split
    · rename_i hover
      have hword := words_of_step (w := ir + v) (by
        simp only [InFixnumRange, fixnumMin, fixnumMax, intmaxMin, intmaxMax] at *
        omega) hvs
      obtain ⟨r, hr, hi⟩ := foldlM_isInt realAdd_integers (forall₂_integerIntmaxT hword)
        (integerIntmaxT_isInt (by decide) (by decide) : IsInt (integerIntmaxT 0) 0)
      refine ⟨.bignum r, by rw [bignumPrimitiveAdd, hr]; rfl, by simpa [Num.StandsFor] using hi, ?_⟩
      have hout : ¬ InFixnumRange (ir + v) := by
        unfold InFixnumRange
        omega
      simp only [Num.isBignum, Bool.true_eq_false, false_iff]
      exact fun hstay => hout hstay.2.head
    · rename_i hin
      obtain ⟨r, hr, hi, hfix⟩ := ih (not_inFixnumRange hin) (fun w hw => hvs w (by simp [hw]))
      exact ⟨r, hr, hi, hfix.trans ⟨fun h => ⟨hir, h⟩, fun h => h.2⟩⟩

/-- `-` on fixnums, after the first argument. -/
theorem fixnumSubtractLoop_spec (hir : InFixnumRange ir) (hvs : ∀ v ∈ vs, InFixnumRange v) :
    ∃ r, fixnumSubtractLoop ir vs = .ok r ∧ r.StandsFor (vs.foldl (· - ·) ir) ∧
      (r.isBignum = false ↔ StaysInRange (· - ·) ir vs) := by
  induction vs generalizing ir with
  | nil =>
    have hin : ¬ (ir > fixnumMax ∨ ir < fixnumMin) := by
      unfold InFixnumRange at hir
      omega
    exact ⟨.fixnum ir, by rw [fixnumSubtractLoop, if_neg hin], ⟨rfl, hir⟩,
      by simpa [Num.isBignum, StaysInRange] using hir⟩
  | cons v vs ih =>
    have hv := hvs v (by simp)
    rw [fixnumSubtractLoop]
    split
    · rename_i hover
      have hword := words_of_step (w := ir - v) (by
        simp only [InFixnumRange, fixnumMin, fixnumMax, intmaxMin, intmaxMax] at *
        omega) hvs
      have hfirst := hword (ir - v) (by simp)
      have hout : ¬ StaysInRange (· - ·) ir (v :: vs) := by
        intro hstay
        have hin : InFixnumRange (ir - v) := hstay.2.head
        unfold InFixnumRange at hin
        omega
      split
      · rename_i hnil
        subst hnil
        exact ⟨_, rfl, integerIntmaxT_isInt hfirst.1 hfirst.2,
          by simpa [Num.isBignum] using hout⟩
      · rename_i hne
        have hwords : ∀ w ∈ vs, intmaxMin ≤ w ∧ w ≤ intmaxMax :=
          fun w hw => hword w (by simp [hw])
        obtain ⟨r, hr, hi⟩ := foldlM_isInt realSubtract_integers (forall₂_integerIntmaxT hwords)
          (integerIntmaxT_isInt hfirst.1 hfirst.2)
        refine ⟨.bignum r, ?_, hi, by simpa [Num.isBignum] using hout⟩
        rw [bignumPrimitiveSubtract, if_neg (by simpa using hne), hr]
        rfl
    · rename_i hin
      obtain ⟨r, hr, hi, hfix⟩ := ih (not_inFixnumRange hin) (fun w hw => hvs w (by simp [hw]))
      exact ⟨r, hr, hi, hfix.trans ⟨fun h => ⟨hir, h⟩, fun h => h.2⟩⟩

/-! ## Overflow of a product -/

theorem msbLoop_spec {fuel : Nat} {i : Int} (h0 : 0 < i) (hlt : i < 2 ^ fuel) :
    2 ^ msbLoop fuel i ≤ i ∧ i < 2 ^ (msbLoop fuel i + 1) := by
  induction fuel generalizing i with
  | zero =>
    rw [pow_zero] at hlt
    omega
  | succ n ih =>
    rw [msbLoop]
    split
    · simp only [pow_zero, zero_add, pow_one]
      omega
    · rw [pow_succ] at hlt
      obtain ⟨hlow, hhigh⟩ := ih (by omega : 0 < i / 2) (by omega)
      rw [pow_succ 2 (msbLoop n (i / 2) + 1), pow_succ 2 (msbLoop n (i / 2))] at *
      omega

theorem msbLoop_zero (fuel : Nat) : msbLoop fuel 0 = 0 := by
  cases fuel <;> simp [msbLoop]

theorem abs_lt_of_fixnum (h : InFixnumRange v) : |v| < 2 ^ 62 := by
  rw [abs_lt]
  simp only [InFixnumRange, fixnumMin, fixnumMax] at h
  norm_num
  omega

/-- The most significant bit of a fixnum's absolute value is below bit 62. -/
theorem msbLoop_fixnum (h : InFixnumRange v) : msbLoop 64 |v| < 62 := by
  rcases (abs_nonneg v).eq_or_lt with h0 | hpos
  · rw [← h0, msbLoop_zero]
    omega
  · have hlt := abs_lt_of_fixnum h
    obtain ⟨hlow, -⟩ := msbLoop_spec hpos (lt_trans hlt (by norm_num : (2 : Int) ^ 62 < 2 ^ 64))
    by_contra hge
    have : (2 : Int) ^ 62 ≤ 2 ^ msbLoop 64 |v| := pow_le_pow_right₀ (by norm_num) (by omega)
    omega

variable {ih : Int}

/-- The precheck refuses only what is out of range. -/
theorem multiplyPrecheck_sound (hr : InFixnumRange ir) (hh : InFixnumRange ih)
    (h : multiplyPrecheck ir ih = true) : ¬ InFixnumRange (ir * ih) := by
  have hbits : msbLoop 64 |ir| + msbLoop 64 |ih| ≥ 62 := by
    simp only [multiplyPrecheck, Bool.and_eq_true, decide_eq_true_iff] at h
    exact h.2
  -- Neither factor is zero: the other alone has not that many bits.
  have pos {u w : Int} (hw : InFixnumRange w)
      (hb : msbLoop 64 |u| + msbLoop 64 |w| ≥ 62) : 0 < |u| := by
    rcases (abs_nonneg u).eq_or_lt with h0 | hpos
    · have := msbLoop_fixnum hw
      rw [← h0, msbLoop_zero] at hb
      omega
    · exact hpos
  have hrpos := pos hh hbits
  have hhpos := pos hr (by omega : msbLoop 64 |ih| + msbLoop 64 |ir| ≥ 62)
  have hbig : (2 : Int) ^ 62 < 2 ^ 64 := by norm_num
  obtain ⟨hrlow, -⟩ := msbLoop_spec hrpos (lt_trans (abs_lt_of_fixnum hr) hbig)
  obtain ⟨hhlow, -⟩ := msbLoop_spec hhpos (lt_trans (abs_lt_of_fixnum hh) hbig)
  have hprod : (2 : Int) ^ 62 ≤ |ir * ih| := by
    calc (2 : Int) ^ 62 ≤ 2 ^ (msbLoop 64 |ir| + msbLoop 64 |ih|) :=
          pow_le_pow_right₀ (by norm_num) hbits
      _ = 2 ^ msbLoop 64 |ir| * 2 ^ msbLoop 64 |ih| := pow_add _ _ _
      _ ≤ |ir| * |ih| := mul_le_mul hrlow hhlow (by positivity) (abs_nonneg ir)
      _ = |ir * ih| := (abs_mul ir ih).symm
  intro hin
  have := abs_lt_of_fixnum hin
  omega

/-- What passes the precheck has fewer than 64 bits, or is a product of two half
words. -/
theorem product_bound (hr : InFixnumRange ir) (hh : InFixnumRange ih)
    (h : multiplyPrecheck ir ih = false) :
    |ir * ih| < 2 ^ 63 ∨ (0 ≤ ir ∧ 0 ≤ ih ∧ ir * ih < 2 ^ 64) := by
  by_cases hmask : (halfwordMask ir || halfwordMask ih) = true
  · refine Or.inl ?_
    have hbits : msbLoop 64 |ir| + msbLoop 64 |ih| < 62 := by
      simpa [multiplyPrecheck, hmask] using h
    rcases (abs_nonneg ir).eq_or_lt with h0 | hrpos
    · have : ir = 0 := abs_eq_zero.mp h0.symm
      simp [this]
    · rcases (abs_nonneg ih).eq_or_lt with h0 | hhpos
      · have : ih = 0 := abs_eq_zero.mp h0.symm
        simp [this]
      · have hbig : (2 : Int) ^ 62 < 2 ^ 64 := by norm_num
        obtain ⟨-, hrhigh⟩ := msbLoop_spec hrpos (lt_trans (abs_lt_of_fixnum hr) hbig)
        obtain ⟨-, hhhigh⟩ := msbLoop_spec hhpos (lt_trans (abs_lt_of_fixnum hh) hbig)
        calc |ir * ih| = |ir| * |ih| := abs_mul ir ih
          _ < 2 ^ (msbLoop 64 |ir| + 1) * 2 ^ (msbLoop 64 |ih| + 1) :=
              mul_lt_mul hrhigh hhhigh.le hhpos (by positivity)
          _ = 2 ^ (msbLoop 64 |ir| + 1 + (msbLoop 64 |ih| + 1)) := (pow_add _ _ _).symm
          _ ≤ 2 ^ 63 := pow_le_pow_right₀ (by norm_num) (by omega)
  · have hsmall : (0 ≤ ir ∧ ir < 4294967296) ∧ (0 ≤ ih ∧ ih < 4294967296) := by
      simpa [halfwordMask] using hmask
    refine Or.inr ⟨hsmall.1.1, hsmall.2.1, ?_⟩
    have := mul_lt_mul'' hsmall.1.2 hsmall.2.2 hsmall.1.1 hsmall.2.1
    norm_num at this ⊢
    exact this

theorem mul_sign {ir ih : Int} :
    ((decide (ir < 0) != decide (ih < 0)) = true → ir * ih ≤ 0) ∧
      ((decide (ir < 0) != decide (ih < 0)) = false → 0 ≤ ir * ih) := by
  by_cases hr : ir < 0 <;> by_cases hh : ih < 0
  · simp [hr, hh, (mul_pos_of_neg_of_neg hr hh).le]
  · simp [hr, hh, mul_nonpos_of_nonpos_of_nonneg hr.le (not_lt.mp hh)]
  · simp [hr, hh, mul_nonpos_of_nonneg_of_nonpos (not_lt.mp hr) hh.le]
  · simp [hr, hh, mul_nonneg (not_lt.mp hr) (not_lt.mp hh)]

/-- The check of the word the multiplication leaves: it accepts exactly the products
in range, and then the word is the product. -/
theorem multiplyCheck_spec (hr : InFixnumRange ir) (hh : InFixnumRange ih)
    (h : multiplyPrecheck ir ih = false) :
    (multiplyCheck ir ih (wrap64 (ir * ih)) = false ↔ InFixnumRange (ir * ih)) ∧
      (InFixnumRange (ir * ih) → wrap64 (ir * ih) = ir * ih) := by
  obtain ⟨hneg, hpos⟩ := @mul_sign ir ih
  have hwrap (hin : InFixnumRange (ir * ih)) : wrap64 (ir * ih) = ir * ih :=
    wrap64_of_mem hin.intmax.1 hin.intmax.2
  refine ⟨?_, hwrap⟩
  generalize hsign : (decide (ir < 0) != decide (ih < 0)) = neg at hneg hpos
  have hcheck : multiplyCheck ir ih (wrap64 (ir * ih)) = false ↔
      InFixnumRange (wrap64 (ir * ih)) ∧ (neg = true → wrap64 (ir * ih) ≤ 0) ∧
        (neg = false → 0 ≤ wrap64 (ir * ih)) := by
    simp only [multiplyCheck, hsign, InFixnumRange]
    cases neg <;> simp <;> omega
  rw [hcheck]
  constructor
  · rintro ⟨hin, -, hsgn⟩
    rcases product_bound hr hh h with hlt | ⟨hr0, hh0, hlt⟩
    · have hsmall : wrap64 (ir * ih) = ir * ih := by
        have := abs_lt.mp hlt
        norm_num at this
        exact wrap64_of_mem (by simp only [intmaxMin]; omega) (by simp only [intmaxMax]; omega)
      rwa [hsmall] at hin
    · -- A product of half words beyond a word would come out negative.
      have hfalse : neg = false := by
        rw [← hsign]
        simp [not_lt.mpr hr0, not_lt.mpr hh0]
      have hnn := mul_nonneg hr0 hh0
      have hw := hsgn hfalse
      norm_num at hlt
      have hsmall : wrap64 (ir * ih) = ir * ih := by
        simp only [wrap64] at hw ⊢
        omega
      rwa [hsmall] at hin
  · intro hin
    rw [hwrap hin]
    exact ⟨hin, hneg, hpos⟩

/-- `*` on fixnums, after the first argument. -/
theorem fixnumMultiplyLoop_spec (hir : InFixnumRange ir) (hvs : ∀ v ∈ vs, InFixnumRange v) :
    ∃ r, fixnumMultiplyLoop ir vs = .ok r ∧ r.StandsFor (vs.foldl (· * ·) ir) ∧
      (r.isBignum = false ↔ StaysInRange (· * ·) ir vs) := by
  induction vs generalizing ir with
  | nil => exact ⟨.fixnum ir, rfl, ⟨rfl, hir⟩, by simpa [Num.isBignum, StaysInRange] using hir⟩
  | cons v vs ih =>
    have hv := hvs v (by simp)
    have hone : IsInt (integerIntmaxT 1) 1 := integerIntmaxT_isInt (by decide) (by decide)
    have hwords : ∀ u ∈ vs, intmaxMin ≤ u ∧ u ≤ intmaxMax := fun u hu =>
      (hvs u (by simp [hu])).intmax
    -- The product is out of range: the rest is folded with bignums.
    have fallback {u w : Int} (hu : InFixnumRange u) (hw : InFixnumRange w)
        (huw : u * w = ir * v) (hout : ¬ InFixnumRange (ir * v)) :
        ∃ r, (bignumPrimitiveMultiply ((u :: w :: vs).map integerIntmaxT)).map Num.bignum = .ok r ∧
          r.StandsFor (vs.foldl (· * ·) (ir * v)) ∧
          (r.isBignum = false ↔ StaysInRange (· * ·) ir (v :: vs)) := by
      obtain ⟨r, hr, hi⟩ := foldlM_isInt realMultiply_integers
        (forall₂_integerIntmaxT (words_of_step hu.intmax (by
          intro x hx
          rcases List.mem_cons.mp hx with rfl | hx
          · exact hw
          · rcases List.mem_cons.mp hx with rfl | hx
            · exact hw
            · exact hvs x (by simp [hx])) : ∀ x ∈ u :: w :: vs, intmaxMin ≤ x ∧ x ≤ intmaxMax)) hone
      refine ⟨.bignum r, by rw [bignumPrimitiveMultiply, hr]; rfl, ?_, ?_⟩
      · simpa [Num.StandsFor, huw] using hi
      · simp only [Num.isBignum, Bool.true_eq_false, false_iff]
        exact fun hstay => hout hstay.2.head
    rw [fixnumMultiplyLoop]
    split
    · rename_i hpre
      exact fallback hv hir (mul_comm v ir) (multiplyPrecheck_sound hir hv hpre)
    · rename_i hpre
      obtain ⟨hcheck, hwrap⟩ := multiplyCheck_spec hir hv (by simpa using hpre)
      split
      · rename_i hout
        refine fallback hir hv rfl (fun hin => ?_)
        rw [hcheck.mpr hin] at hout
        cases hout
      · rename_i hok
        have hin := hcheck.mp (by simpa using hok)
        rw [hwrap hin]
        obtain ⟨r, hr, hi, hfix⟩ := ih hin (fun w hw => hvs w (by simp [hw]))
        exact ⟨r, hr, hi, hfix.trans ⟨fun h => ⟨hir, h⟩, fun h => h.2⟩⟩

/-! ## The generic primitives on integers -/

/-- The result of a generic primitive on integers is the integer `n`, and a fixnum exactly if
`fixnum`. -/
def Outcome (n : Int) (fixnum : Prop) (res : Result Num) : Prop :=
  ∃ r : Number, res = .ok r.toNum ∧ r.IsInteger ∧ r.intValue = n ∧ (r.IsFixnum ↔ fixnum)

/-- The result is the integer `n`. -/
def ExactResult (n : Int) (res : Result Num) : Prop :=
  ∃ r : Number, res = .ok r.toNum ∧ r.IsInteger ∧ r.intValue = n

/-- The result is the integer `n`, and a fixnum exactly if `n` is in the fixnum range. -/
def CanonicalResult (n : Int) (res : Result Num) : Prop := Outcome n (InFixnumRange n) res

/-- A bignum is among the arguments, or no running value leaves the fixnum range and comes back
to it at the end. -/
def Settled (op : Int → Int → Int) (x : Number) (xs : List Number) : Prop :=
  (∃ a ∈ x :: xs, ¬ a.IsFixnum) ∨
    (InFixnumRange ((xs.map Number.intValue).foldl op x.intValue) →
      StaysInRange op x.intValue (xs.map Number.intValue))

variable {n : Int}

/-- Equal results are fixnums alike. -/
theorem Outcome.canonical {fixnum : Prop} {res : Result Num} (h : Outcome n fixnum res) :
    ExactResult n res ∧ (CanonicalResult n res ↔ (fixnum ↔ InFixnumRange n)) := by
  obtain ⟨r, hr, hint, hval, hfix⟩ := h
  refine ⟨⟨r, hr, hint, hval⟩, fun hcan => ?_, fun hiff => ⟨r, hr, hint, hval, hfix.trans hiff⟩⟩
  obtain ⟨s, hs, -, -, hsfix⟩ := hcan
  have hsame : s.toNum = r.toNum := Except.ok.inj (hs.symm.trans hr)
  rw [← hsfix, ← hfix, ← Number.isBignum_eq_false_iff, ← Number.isBignum_eq_false_iff, hsame]

theorem Num.StandsFor.number {r : Num} (h : r.StandsFor n) :
    ∃ s : Number, s.toNum = r ∧ s.IsInteger ∧ s.intValue = n := by
  cases r with
  | fixnum v => exact ⟨.fixnum v (h.1 ▸ h.2), rfl, trivial, h.1⟩
  | bignum bn =>
    have hi : IsInt bn n := h
    exact ⟨.integer hi.toNormal, rfl, trivial, hi.toNormal_toInt⟩

/-- The bignum way: converted to a fixnum where that is possible. -/
theorem outcome_of_bignum {res : Result Bignum} {bn : Bignum} (hrun : res = .ok bn)
    (hi : IsInt bn n) : Outcome n (InFixnumRange n) (res.map toFixnum) := by
  have hfix := toFixnum_isInt hi
  rw [hrun]
  by_cases hin : InFixnumRange n
  · rw [if_pos hin] at hfix
    exact ⟨.fixnum n hin, congrArg Except.ok hfix, trivial, rfl, ⟨fun _ => hin, fun _ => trivial⟩⟩
  · rw [if_neg hin] at hfix
    exact ⟨.integer hi.toNormal, congrArg Except.ok hfix, trivial, hi.toNormal_toInt,
      ⟨fun h => h.elim, fun h => absurd h hin⟩⟩

/-- The fixnum way: a fixnum when no running value leaves the range. -/
theorem outcome_of_fixnum {fixnum : Prop} {res : Result Num}
    (hrun : ∃ r, res = .ok r ∧ r.StandsFor n ∧ (r.isBignum = false ↔ fixnum)) :
    Outcome n fixnum res := by
  obtain ⟨r, hr, hstands, hfix⟩ := hrun
  obtain ⟨s, hs, hint, hval⟩ := hstands.number
  refine ⟨s, by rw [hr, hs], hint, hval, ?_⟩
  rw [← Number.isBignum_eq_false_iff, hs, hfix]

variable {xs : List Number}

/-- With a bignum among the arguments the result is converted. -/
theorem settled_of_bignum {x : Number} (h : ∃ a ∈ x :: xs, ¬ a.IsFixnum) (n : Int) :
    (InFixnumRange n ↔ InFixnumRange n) ↔ Settled op x xs :=
  ⟨fun _ => .inl h, fun _ => Iff.rfl⟩

/-- Among fixnums it is the running values that matter. -/
theorem settled_of_fixnums {x : Number} (h : ∀ a ∈ x :: xs, a.IsFixnum) :
    (StaysInRange op x.intValue (xs.map Number.intValue) ↔
        InFixnumRange ((xs.map Number.intValue).foldl op x.intValue)) ↔ Settled op x xs := by
  constructor
  · exact fun hiff => .inr hiff.mpr
  · rintro (⟨a, ha, hnot⟩ | hstay)
    · exact absurd (h a ha) hnot
    · exact ⟨StaysInRange.foldl, hstay⟩

/-- Some argument is a bignum. -/
theorem exists_bignum (h : (xs.map Number.toNum).any Num.isBignum = true) :
    ∃ a ∈ xs, ¬ a.IsFixnum := by
  rw [List.any_map, List.any_eq_true] at h
  obtain ⟨a, ha, hbig⟩ := h
  refine ⟨a, ha, fun hfix => ?_⟩
  rw [← Number.isBignum_eq_false_iff] at hfix
  rw [Function.comp_apply, hfix] at hbig
  cases hbig

theorem forall₂_isInt (h : ∀ a ∈ xs, a.IsInteger) :
    List.Forall₂ IsInt ((xs.map Number.toNum).map Num.toBignum) (xs.map Number.intValue) := by
  induction xs with
  | nil => exact .nil
  | cons x xs ih => exact .cons (h x (by simp)).isInt (ih fun a ha => h a (by simp [ha]))

/-- Without a bignum among the arguments all are fixnums, read off as words. -/
theorem all_fixnums (h : ¬ (xs.map Number.toNum).any Num.isBignum = true) :
    (∀ a ∈ xs, a.IsFixnum) ∧
      (xs.map Number.toNum).map Num.fixnumVal = xs.map Number.intValue ∧
      ∀ v ∈ xs.map Number.intValue, InFixnumRange v := by
  have hfix : ∀ a ∈ xs, a.IsFixnum := by
    intro a ha
    rw [← Number.isBignum_eq_false_iff]
    simp only [List.any_map, List.any_eq_true, Function.comp, not_exists, not_and] at h
    simpa using h a ha
  refine ⟨hfix, ?_, ?_⟩
  · rw [List.map_map]
    exact List.map_congr_left fun a ha => (hfix a ha).fixnumVal_eq.1
  · intro v hv
    obtain ⟨a, ha, rfl⟩ := List.mem_map.mp hv
    exact (hfix a ha).fixnumVal_eq.2

/-- What a primitive does with a list of integers: the value is exact, and the claim that it is a
fixnum where it can be holds if and only if the arguments are settled. -/
def ArithmeticExact (op : Int → Int → Int) (n : Int) (x : Number) (xs : List Number)
    (res : Result Num) : Prop :=
  ExactResult n res ∧ (CanonicalResult n res ↔ Settled op x xs)

theorem add_exact {x : Number} {xs : List Number} (h : ∀ a ∈ x :: xs, a.IsInteger) :
    ArithmeticExact (· + ·) ((xs.map Number.intValue).foldl (· + ·) x.intValue) x xs
      (Num.add ((x :: xs).map Number.toNum)) := by
  unfold Num.add arithmetic0V ArithmeticExact
  split
  · rename_i hany
    obtain ⟨r, hr, hi⟩ := foldlM_isInt realAdd_integers (forall₂_isInt h)
      (integerIntmaxT_isInt (by decide) (by decide) : IsInt (integerIntmaxT 0) 0)
    rw [← settled_of_bignum (exists_bignum hany)]
    exact (outcome_of_bignum hr (by simpa using hi)).canonical
  · rename_i hnone
    obtain ⟨hfix, hvals, hrange⟩ := all_fixnums hnone
    rw [← settled_of_fixnums hfix, hvals, fixnumPrimitiveAdd]
    obtain ⟨r, hr, hstands, hstay⟩ := fixnumAddLoop_spec (by decide : InFixnumRange 0) hrange
    refine (outcome_of_fixnum ⟨r, hr, by simpa using hstands, ?_⟩).canonical
    rw [hstay, List.map_cons]
    simp [StaysInRange, show InFixnumRange 0 by decide]

theorem multiply_exact {x : Number} {xs : List Number} (h : ∀ a ∈ x :: xs, a.IsInteger) :
    ArithmeticExact (· * ·) ((xs.map Number.intValue).foldl (· * ·) x.intValue) x xs
      (Num.multiply ((x :: xs).map Number.toNum)) := by
  unfold Num.multiply arithmetic0V ArithmeticExact
  split
  · rename_i hany
    obtain ⟨r, hr, hi⟩ := foldlM_isInt realMultiply_integers (forall₂_isInt h)
      (integerIntmaxT_isInt (by decide) (by decide) : IsInt (integerIntmaxT 1) 1)
    rw [← settled_of_bignum (exists_bignum hany)]
    exact (outcome_of_bignum hr (by simpa using hi)).canonical
  · rename_i hnone
    obtain ⟨hfix, hvals, hrange⟩ := all_fixnums hnone
    rw [← settled_of_fixnums hfix, hvals, List.map_cons, fixnumPrimitiveMultiply]
    rw [List.map_cons] at hrange
    exact (outcome_of_fixnum (fixnumMultiplyLoop_spec (hrange _ (by simp))
      fun v hv => hrange v (List.mem_cons_of_mem _ hv))).canonical

/-- The left fold of `-`; a single argument is negated. -/
def difference (v : Int) (vs : List Int) : Int :=
  if vs = [] then - v else vs.foldl (· - ·) v

/-- A single fixnum is negated, and the result looked at once more. -/
theorem fixnumPrimitiveSubtract_one (hv : InFixnumRange v) :
    Outcome (- v) (InFixnumRange (- v)) (fixnumPrimitiveSubtract v []) := by
  have hw : intmaxMin ≤ - v ∧ - v ≤ intmaxMax := by
    simp only [InFixnumRange, fixnumMin, fixnumMax, intmaxMin, intmaxMax] at *
    omega
  rw [fixnumPrimitiveSubtract, if_pos rfl, fixnumSubtractLoop]
  split
  · rename_i hout
    refine ⟨.integer (normalIntmax (- v) hw.1 hw.2), rfl, trivial, normalIntmax_toInt _ _, ?_⟩
    refine ⟨fun h => h.elim, fun h => ?_⟩
    unfold InFixnumRange at h
    omega
  · rename_i hin
    exact ⟨.fixnum (- v) (not_inFixnumRange hin), rfl, trivial, rfl,
      ⟨fun _ => not_inFixnumRange hin, fun _ => trivial⟩⟩

theorem subtract_exact {x : Number} (h : ∀ a ∈ x :: xs, a.IsInteger) :
    ArithmeticExact (· - ·) (difference x.intValue (xs.map Number.intValue)) x xs
      (Num.subtract x.toNum (xs.map Number.toNum)) := by
  have hx := h x (by simp)
  have hxs : ∀ a ∈ xs, a.IsInteger := fun a ha => h a (by simp [ha])
  unfold Num.subtract arithmetic1V ArithmeticExact
  by_cases hbig : (x.toNum.isBignum || (xs.map Number.toNum).any Num.isBignum) = true
  · have hany : ((x :: xs).map Number.toNum).any Num.isBignum = true := by simpa using hbig
    rw [if_pos hbig, ← settled_of_bignum (exists_bignum hany)
      (difference x.intValue (xs.map Number.intValue))]
    cases xs with
    | nil =>
      refine (outcome_of_bignum ?_ hx.isInt.negate).canonical
      simp [bignumPrimitiveSubtract, hx.isInt.isInteger]
    | cons y ys =>
      obtain ⟨r, hr, hi⟩ := foldlM_isInt realSubtract_integers (forall₂_isInt hxs) hx.isInt
      have hrun : bignumPrimitiveSubtract x.toNum.toBignum
          (((y :: ys).map Number.toNum).map Num.toBignum) = .ok r := by
        rw [bignumPrimitiveSubtract, if_neg (by simp), hr]
      refine (outcome_of_bignum hrun ?_).canonical
      simpa [difference] using hi
  · have hall : ¬ ((x :: xs).map Number.toNum).any Num.isBignum = true := by simpa using hbig
    obtain ⟨hfix, -, hrange⟩ := all_fixnums hall
    have hnone : ¬ (xs.map Number.toNum).any Num.isBignum = true := by
      intro hany
      exact hbig (by rw [hany, Bool.or_true])
    obtain ⟨-, hvals, hrange'⟩ := all_fixnums hnone
    have hxv := (hfix x (by simp)).fixnumVal_eq
    rw [if_neg hbig, hvals, hxv.1]
    cases xs with
    | nil =>
      obtain ⟨hexact, hcan⟩ := (fixnumPrimitiveSubtract_one hxv.2).canonical
      exact ⟨hexact, hcan.trans ⟨fun _ => .inr fun hin => hin, fun _ => Iff.rfl⟩⟩
    | cons y ys =>
      rw [← settled_of_fixnums hfix, fixnumPrimitiveSubtract, if_neg (by simp), difference,
        if_neg (by simp)]
      exact (outcome_of_fixnum (fixnumSubtractLoop_spec hxv.2 hrange')).canonical

/-- **Generic arithmetic on integers.**  Over every non-empty list of fixnums and integer bignums
`+`, `-` and `*` return the sum, the left-fold difference and the product.  The result is a fixnum
exactly when it is in the fixnum range if and only if a bignum is among the arguments or no
running value leaves that range and comes back to it. -/
theorem generic_arithmetic_exact (x : Number) (xs : List Number)
    (h : ∀ a ∈ x :: xs, a.IsInteger) :
    ArithmeticExact (· + ·) ((xs.map Number.intValue).foldl (· + ·) x.intValue) x xs
        (Num.add ((x :: xs).map Number.toNum)) ∧
      ArithmeticExact (· - ·) (difference x.intValue (xs.map Number.intValue)) x xs
        (Num.subtract x.toNum (xs.map Number.toNum)) ∧
      ArithmeticExact (· * ·) ((xs.map Number.intValue).foldl (· * ·) x.intValue) x xs
        (Num.multiply ((x :: xs).map Number.toNum)) :=
  ⟨add_exact h, subtract_exact h, multiply_exact h⟩

/-- `FIXNUM-MAX`, 2 and `- FIXNUM-MAX`: a running value leaves the fixnum range. -/
theorem generic_arithmetic_exact_back :
    ArithmeticExact (· + ·) 2 (.fixnum fixnumMax (by decide))
        [.fixnum 2 (by decide), .fixnum (- fixnumMax) (by decide)]
        (Num.add [.fixnum fixnumMax, .fixnum 2, .fixnum (- fixnumMax)]) ∧
      ArithmeticExact (· - ·) (fixnumMax - 2 + fixnumMax) (.fixnum fixnumMax (by decide))
        [.fixnum 2 (by decide), .fixnum (- fixnumMax) (by decide)]
        (Num.subtract (.fixnum fixnumMax) [.fixnum 2, .fixnum (- fixnumMax)]) ∧
      ArithmeticExact (· * ·) (fixnumMax * 2 * (- fixnumMax)) (.fixnum fixnumMax (by decide))
        [.fixnum 2 (by decide), .fixnum (- fixnumMax) (by decide)]
        (Num.multiply [.fixnum fixnumMax, .fixnum 2, .fixnum (- fixnumMax)]) :=
  generic_arithmetic_exact (.fixnum fixnumMax (by decide))
    [.fixnum 2 (by decide), .fixnum (- fixnumMax) (by decide)] (by simp [Number.IsInteger])

/-- `FIXNUM-MAX`, 1 and -1: the sum is in the fixnum range and stays a bignum. -/
theorem add_back_in_range : ¬ CanonicalResult fixnumMax
    (Num.add [.fixnum fixnumMax, .fixnum 1, .fixnum (-1)]) := by
  rintro ⟨r, hr, -, -, hfix⟩
  have hrun : Num.add [.fixnum fixnumMax, .fixnum 1, .fixnum (-1)] =
      .ok (.bignum (integerIntmaxT fixnumMax)) := by rfl
  have hnum : r.toNum = .bignum (integerIntmaxT fixnumMax) := Except.ok.inj (hr.symm.trans hrun)
  have hbig : r.toNum.isBignum = true := by rw [hnum]; rfl
  have hsmall : r.toNum.isBignum = false := by
    rw [Number.isBignum_eq_false_iff, hfix]
    decide
  rw [hbig] at hsmall
  cases hsmall

end Idio
