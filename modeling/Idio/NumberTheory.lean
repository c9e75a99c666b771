/-
  NumberTheory.lean --- `gcd`, `lcm` and `expt`.

  The library functions fold a function of two arguments over the absolute values of
  a list.  Below the absolute value nothing can go wrong for `gcd`: its values stay
  between zero and the arguments.  `lcm` divides by the greatest common divisor of
  the running value and the next number, which is zero when both are, so a list with
  two zeros ends in a division by zero.
-/
import Idio.Division
import Mathlib.Order.Filter.AtTopBot.Basic
import Mathlib.Algebra.GCDMonoid.Nat
import Mathlib.Tactic.Ring

set_option autoImplicit false

namespace Idio

open Bignum Filter

/-! ## The functions -/

/-- `IDIO_DEFINE_ARITHMETIC_BINARY_PRIMITIVE`. -/
def arithmeticBinary (fixnumPrimitive : List Int → Result Num)
    (bignumPrimitive : List Bignum → Result Bignum) (n1 n2 : Num) : Result Num :=
  if n1.isBignum || n2.isBignum then
    (bignumPrimitive [n1.toBignum, n2.toBignum]).map toFixnum
  else fixnumPrimitive [n1.fixnumVal, n2.fixnumVal]

/-- `binary-*`, which the infix `*` becomes. -/
def Num.binaryMultiply : Num → Num → Result Num :=
  arithmeticBinary fixnumPrimitiveMultiply bignumPrimitiveMultiply

/-- `gcd2`. -/
def gcd2 : Nat → Num → Num → Result Num
  | 0, _, _ => .error .diverges
  | fuel + 1, a, b =>
      if b.zeroP then .ok a
      else if a.zeroP then .ok b
      else do
        if ← a.binaryLt b then gcd2 fuel a (← b.remainder a)
        else gcd2 fuel b (← a.remainder b)

/-- `gcd`. -/
def gcd (fuel : Nat) (a : List Num) : Result Num := do
  (← a.mapM Num.abs).foldlM (gcd2 fuel) (.fixnum 0)

/-- `lcm2`. -/
def lcm2 (fuel : Nat) (a b : Num) : Result Num := do
  let cd ← gcd fuel [a, b]
  Num.multiply [cd, ← Num.multiply [← a.quotient cd, ← b.quotient cd]]

/-- `lcm`. -/
def lcm (fuel : Nat) (a : List Num) : Result Num := do
  (← a.mapM Num.abs).foldlM (lcm2 fuel) (.fixnum 1)

/-- `even?`. -/
def Num.evenP (x : Num) : Result Bool := do pure (← x.remainder (.fixnum 2)).zeroP

/-- `inexact?`. -/
def Num.inexactP : Num → Bool
  | .fixnum _ => false
  | .bignum bn => !bn.flags.integer && bn.flags.realInexact

/-- `idio_isa_integer`. -/
def Num.integerP : Num → Result Bool
  | .fixnum _ => .ok true
  | .bignum bn => if bn.flags.integer then .ok true else (realToInteger bn).map Option.isSome

/-- `square`. -/
def square (x : Num) : Result Num := x.binaryMultiply x

/-- `expt2`. -/
def expt2 : Nat → Num → Num → Result Num
  | 0, _, _ => .error .diverges
  | fuel + 1, x, y =>
      if y.zeroP then .ok (.fixnum 1)
      else do
        if ← y.evenP then square (← expt2 fuel x (← y.quotient (.fixnum 2)))
        else x.binaryMultiply (← square (← expt2 fuel x (← y.quotient (.fixnum 2))))

/-- `expt`.  `others` stands for what is done with an exponent that is negative or no
integer, where the result is a real. -/
def expt (others : Num → Num → Result Num) (fuel : Nat) (x y : Num) : Result Num := do
  if ← y.negativeP then others x y
  else if x.zeroP then
    if y.inexactP then others x y else expt2 fuel x y
  else if ← y.integerP then expt2 fuel x y
  else others x y

/-! ## Common divisors and multiples -/

/-- The greatest common divisor of the list, zero if there is none but zero. -/
def IsGcd (ns : List Int) (g : Int) : Prop := 0 ≤ g ∧ ∀ d, d ∣ g ↔ ∀ n ∈ ns, d ∣ n

/-- The least common multiple of the list, zero if there is none but zero. -/
def IsLcm (ns : List Int) (m : Int) : Prop := 0 ≤ m ∧ ∀ d, m ∣ d ↔ ∀ n ∈ ns, n ∣ d

/-- What `gcd2` computes. -/
def gcdStep (m n : Int) : Int := Int.gcd m n

/-- What `lcm2` computes. -/
def lcmStep (m n : Int) : Int := Int.lcm m n

theorem dvd_foldl_gcd (ns : List Int) (n d : Int) :
    d ∣ ns.foldl gcdStep n ↔ d ∣ n ∧ ∀ m ∈ ns, d ∣ m := by
  induction ns generalizing n with
  | nil => simp
  | cons m ns ih =>
    rw [List.foldl_cons, ih, gcdStep, Int.dvd_coe_gcd_iff, List.forall_mem_cons, and_assoc]

theorem foldl_lcm_dvd (ns : List Int) (n d : Int) :
    ns.foldl lcmStep n ∣ d ↔ n ∣ d ∧ ∀ m ∈ ns, m ∣ d := by
  induction ns generalizing n with
  | nil => simp
  | cons m ns ih =>
    rw [List.foldl_cons, ih, lcmStep, Int.coe_lcm_dvd_iff, List.forall_mem_cons, and_assoc]

variable {n : Int} {step : Int → Int → Int}

/-- A step whose values are natural numbers keeps the fold from below zero. -/
theorem foldl_nonneg (hstep : ∀ m n, 0 ≤ step m n) (hn : 0 ≤ n) (ns : List Int) :
    0 ≤ ns.foldl step n := by
  induction ns generalizing n with
  | nil => exact hn
  | cons m ns ih => exact ih (hstep n m)

theorem isGcd_foldl (ns : List Int) : IsGcd ns ((ns.map fun n => |n|).foldl gcdStep 0) := by
  refine ⟨foldl_nonneg (fun m n => Int.natCast_nonneg _) le_rfl _, fun d => ?_⟩
  rw [dvd_foldl_gcd, List.forall_mem_map]
  simp

theorem isLcm_foldl (ns : List Int) : IsLcm ns ((ns.map fun n => |n|).foldl lcmStep 1) := by
  refine ⟨foldl_nonneg (fun m n => Int.natCast_nonneg _) zero_le_one _, fun d => ?_⟩
  rw [foldl_lcm_dvd, List.forall_mem_map]
  simp

/-! ## One step -/

/-- The fixnum that has no absolute value among the fixnums. -/
def Number.IsLeastFixnum (x : Number) : Prop := x.toNum = .fixnum fixnumMin

section Integers

variable {x y : Number}

theorem multiply_gives (hx : x.IsInteger) (hy : y.IsInteger) :
    Gives (Num.multiply [x.toNum, y.toNum]) (x.intValue * y.intValue) :=
  ((@multiply_exact x [y] (by simp [hx, hy])).2.mpr (settled_pair _ x y hx)).gives

theorem binaryMultiply_gives (hx : x.IsInteger) (hy : y.IsInteger) :
    Gives (x.toNum.binaryMultiply y.toNum) (x.intValue * y.intValue) := by
  have hbinary : x.toNum.binaryMultiply y.toNum = Num.multiply [x.toNum, y.toNum] := by
    simp [Num.binaryMultiply, arithmeticBinary, Num.multiply, arithmetic0V]
  rw [hbinary]
  exact multiply_gives hx hy

theorem not_isLeastFixnum (hx : x.IsInteger) (hx0 : 0 ≤ x.intValue) : ¬ x.IsLeastFixnum := by
  intro h
  cases x with
  | fixnum v hv =>
    have hv : v = fixnumMin := Num.fixnum.inj h
    have hmin : fixnumMin < 0 := by decide
    exact absurd hx0 (not_le.mpr (hv ▸ hmin))
  | integer a => cases h
  | real r => exact hx

/-- Only of numbers below zero can a quotient be too large. -/
theorem quotient_gives_of_nonneg (hx : x.IsInteger) (hy : y.IsInteger) (hx0 : 0 ≤ x.intValue)
    (h0 : y.intValue ≠ 0) : Gives (x.toNum.quotient y.toNum) (x.intValue.tdiv y.intValue) :=
  (quotient_gives hx hy h0).mpr fun h => not_isLeastFixnum hx hx0 h.1

theorem quotient_zero (hx : x.IsInteger) (hy : y.IsInteger) (h0 : y.intValue = 0) :
    ∃ e, x.toNum.quotient y.toNum = .error e := by
  have hbig : ∃ e, (bignumPrimitiveQuotient x.toNum.toBignum y.toNum.toBignum).map toFixnum =
      .error e := by
    have hzero : Bignum.zeroP y.toNum.toBignum = true := by
      rw [hy.isInt.zeroP_eq]
      exact decide_eq_true h0
    refine ⟨.divideByZero "bignum divide by zero", ?_⟩
    rw [bignumPrimitiveQuotient, bignumPrimitiveDivide, integerArgument,
      if_pos hx.isInt.isInteger, ok_bind]
    show ((integerArgument _ >>= _).map _).map _ = _
    rw [integerArgument, if_pos hy.isInt.isInteger, ok_bind]
    show ((divide _ _).map _).map _ = _
    rw [divide, if_pos hzero]
    rfl
  cases x with
  | real r => exact hx.elim
  | integer a => cases y <;> exact hbig
  | fixnum v hv =>
    cases y with
    | real r => exact hy.elim
    | integer b => exact hbig
    | fixnum w hw => exact ⟨_, if_pos h0⟩

/-- One exchange keeps the greatest common divisor. -/
theorem gcd_tmod {m n : Int} (hm : 0 ≤ m) : Int.gcd n (m.tmod n) = Int.gcd m n := by
  rw [Int.tmod_eq_emod_of_nonneg hm, Int.gcd_comm, Int.gcd_emod]

/-- **The Euclidean loop.**  Every call lowers the sum of its arguments. -/
theorem gcd2_gives {fuel : Nat} (hx : x.Canonical) (hy : y.Canonical) (hx0 : 0 ≤ x.intValue)
    (hy0 : 0 ≤ y.intValue) (hfuel : x.intValue + y.intValue < fuel) :
    Gives (gcd2 fuel x.toNum y.toNum) (gcdStep x.intValue y.intValue) := by
  induction fuel generalizing x y with
  | zero => omega
  | succ fuel ih =>
    rw [gcd2, zeroP_integer hx.1, zeroP_integer hy.1, gcdStep]
    by_cases hyz : y.intValue = 0
    · rw [if_pos (decide_eq_true hyz), hyz, Int.gcd_zero_right, Int.natAbs_of_nonneg hx0]
      exact ⟨x, rfl, hx, rfl⟩
    rw [if_neg (by simpa using hyz)]
    by_cases hxz : x.intValue = 0
    · rw [if_pos (decide_eq_true hxz), hxz, Int.gcd_zero_left, Int.natAbs_of_nonneg hy0]
      exact ⟨y, rfl, hy, rfl⟩
    rw [if_neg (by simpa using hxz), binaryLt_integers hx.1 hy.1, ok_bind]
    by_cases hlt : x.intValue < y.intValue
    · obtain ⟨r, hrun, hr, hval⟩ := remainder_gives hy.1 hx.1 hxz
      have hsmall : y.intValue.tmod x.intValue < x.intValue := Int.tmod_lt_of_pos _ (by omega)
      rw [if_pos (decide_eq_true hlt), hrun, ok_bind, Int.gcd_comm, ← gcd_tmod hy0, ← hval]
      exact ih hx hr hx0 (by rw [hval]; exact Int.tmod_nonneg _ hy0) (by rw [hval]; omega)
    · obtain ⟨r, hrun, hr, hval⟩ := remainder_gives hx.1 hy.1 hyz
      have hsmall : x.intValue.tmod y.intValue < y.intValue := Int.tmod_lt_of_pos _ (by omega)
      rw [if_neg (by simpa using hlt), hrun, ok_bind, ← gcd_tmod hx0, ← hval]
      exact ih hy hr hy0 (by rw [hval]; exact Int.tmod_nonneg _ hx0) (by rw [hval]; omega)

end Integers

/-! ## Lists -/

/-- Absolute values in canonical form. -/
structure Absolutes (rs : List Number) (vs : List Int) : Prop where
  canonical : ∀ r ∈ rs, r.Canonical
  value : rs.map Number.intValue = vs.map fun n => |n|

variable {xs : List Number}

theorem mapM_abs (hxs : ∀ x ∈ xs, x.IsInteger) (hleast : ∀ x ∈ xs, ¬ x.IsLeastFixnum) :
    ∃ rs, (xs.map Number.toNum).mapM Num.abs = .ok (rs.map Number.toNum) ∧
      Absolutes rs (xs.map Number.intValue) := by
  induction xs with
  | nil => exact ⟨[], rfl, by simp, rfl⟩
  | cons x xs ih =>
    obtain ⟨hx, hxs⟩ := List.forall_mem_cons.mp hxs
    obtain ⟨hxl, hxsl⟩ := List.forall_mem_cons.mp hleast
    obtain ⟨r, hrun, hr, hval⟩ := (abs_gives hx).mpr hxl
    obtain ⟨rs, hruns, hcan, hvals⟩ := ih hxs hxsl
    refine ⟨r :: rs, ?_, List.forall_mem_cons.mpr ⟨hr, hcan⟩, ?_⟩
    · rw [List.map_cons, List.mapM_cons, hrun, ok_bind, hruns]
      rfl
    · rw [List.map_cons, hval, hvals]
      rfl

theorem mapM_abs_error (hxs : ∀ x ∈ xs, x.IsInteger) (hleast : ¬ ∀ x ∈ xs, ¬ x.IsLeastFixnum) :
    ∃ e, (xs.map Number.toNum).mapM Num.abs = .error e := by
  induction xs with
  | nil => exact absurd (by simp) hleast
  | cons x xs ih =>
    obtain ⟨hx, hxs⟩ := List.forall_mem_cons.mp hxs
    rw [List.map_cons, List.mapM_cons]
    by_cases hxl : x.IsLeastFixnum
    · rw [show x.toNum = .fixnum fixnumMin from hxl]
      exact ⟨_, rfl⟩
    · obtain ⟨e, he⟩ := ih hxs fun h => hleast (List.forall_mem_cons.mpr ⟨hxl, h⟩)
      obtain ⟨r, hrun, -⟩ := (abs_gives hx).mpr hxl
      exact ⟨e, by rw [hrun, ok_bind, he]; rfl⟩

/-- Every step of the fold is one that the function is right for. -/
def FoldsIn (P : Int → Int → Prop) (step : Int → Int → Int) : Int → List Int → Prop
  | _, [] => True
  | m, n :: ns => P m n ∧ FoldsIn P step (step m n) ns

/-- Once there is fuel enough, the function of two arguments computes the step. -/
def Computes (op : Nat → Num → Num → Result Num) (step : Int → Int → Int) (m n : Int) : Prop :=
  ∀ᶠ fuel in atTop, ∀ x y : Number, x.Canonical → y.Canonical → x.intValue = m → y.intValue = n →
    Gives (op fuel x.toNum y.toNum) (step m n)

variable {m : Int}

/-- A step that the function is right for leaves the rest of the fold. -/
theorem Computes.foldlM_cons {op : Nat → Num → Num → Result Num} (h : Computes op step m n) :
    ∀ᶠ fuel in atTop, ∀ (x : Number) (rs : List Number) (ns : List Int), x.Canonical →
      x.intValue = m → (∀ r ∈ rs, r.Canonical) → rs.map Number.intValue = n :: ns →
        ∃ (s : Number) (rs' : List Number), s.Canonical ∧ s.intValue = step m n ∧
          (∀ r ∈ rs', r.Canonical) ∧ rs'.map Number.intValue = ns ∧
          (rs.map Number.toNum).foldlM (op fuel) x.toNum =
            (rs'.map Number.toNum).foldlM (op fuel) s.toNum := by
  filter_upwards [h] with fuel hstep x rs ns hx hm hrs hns
  obtain ⟨r, rs', rfl, hr, hrs'⟩ := List.map_eq_cons_iff.mp hns
  obtain ⟨hrc, hrsc⟩ := List.forall_mem_cons.mp hrs
  obtain ⟨s, hrun, hs, hval⟩ := hstep x r hx hrc hm hr
  refine ⟨s, rs', hs, hval, hrsc, hrs', ?_⟩
  rw [List.map_cons, List.foldlM_cons, hrun, ok_bind]

variable {ns : List Int}

theorem fold_gives {op : Nat → Num → Num → Result Num} (h : FoldsIn (Computes op step) step m ns) :
    ∀ᶠ fuel in atTop, ∀ (x : Number) (rs : List Number), x.Canonical → x.intValue = m →
      (∀ r ∈ rs, r.Canonical) → rs.map Number.intValue = ns →
        Gives ((rs.map Number.toNum).foldlM (op fuel) x.toNum) (ns.foldl step m) := by
  induction ns generalizing m with
  | nil =>
    refine .of_forall fun fuel x rs hx hm _ hns => ?_
    rw [List.map_eq_nil_iff.mp hns]
    exact ⟨x, rfl, hx, hm⟩
  | cons n ns ih =>
    filter_upwards [h.1.foldlM_cons, ih h.2] with fuel hstep hrest x rs hx hm hrs hns
    obtain ⟨s, rs', hs, hval, hrsc, hrs', heq⟩ := hstep x rs ns hx hm hrs hns
    rw [heq]
    exact hrest s rs' hs hval hrsc hrs'

theorem gcd2_computes (hm : 0 ≤ m) (hn : 0 ≤ n) : Computes gcd2 gcdStep m n := by
  filter_upwards [eventually_gt_atTop (m + n).toNat] with fuel hfuel x y hx hy hxm hyn
  subst hxm hyn
  exact gcd2_gives hx hy hm hn (by omega)

theorem foldsIn_gcd (hm : 0 ≤ m) (hns : ∀ n ∈ ns, 0 ≤ n) :
    FoldsIn (Computes gcd2 gcdStep) gcdStep m ns := by
  induction ns generalizing m with
  | nil => trivial
  | cons n ns ih =>
    obtain ⟨hn, hns⟩ := List.forall_mem_cons.mp hns
    exact ⟨gcd2_computes hm hn, ih (Int.natCast_nonneg _) hns⟩

/-- The greatest common divisor of numbers none of which is the least fixnum. -/
theorem gcd_gives (vs : List Int) : ∀ᶠ fuel in atTop, ∀ xs : List Number,
    (∀ x ∈ xs, x.IsInteger) → (∀ x ∈ xs, ¬ x.IsLeastFixnum) → xs.map Number.intValue = vs →
      Gives (gcd fuel (xs.map Number.toNum)) ((vs.map fun n => |n|).foldl gcdStep 0) := by
  have hnonneg : ∀ n ∈ vs.map fun n => |n|, 0 ≤ n :=
    List.forall_mem_map.mpr fun n _ => abs_nonneg n
  filter_upwards [fold_gives (foldsIn_gcd le_rfl hnonneg)] with fuel hfuel xs hxs hleast hvs
  obtain ⟨rs, hruns, habs⟩ := mapM_abs hxs hleast
  rw [gcd, hruns, ok_bind]
  exact hfuel (.fixnum 0 (by decide)) rs (canonical_fixnum _) rfl habs.canonical (hvs ▸ habs.value)

theorem gcd_error (hxs : ∀ x ∈ xs, x.IsInteger) (hleast : ¬ ∀ x ∈ xs, ¬ x.IsLeastFixnum)
    (fuel : Nat) :
    ∃ e, gcd fuel (xs.map Number.toNum) = .error e := by
  obtain ⟨e, he⟩ := mapM_abs_error hxs hleast
  exact ⟨e, by rw [gcd, he, error_bind]⟩

/-! ## Least common multiples -/

theorem gcdStep_pos (h : ¬ (m = 0 ∧ n = 0)) : 0 < gcdStep m n :=
  Int.natCast_pos.mpr (Int.gcd_pos_iff.mpr (by omega))

/-- The greatest common divisor times the product of the quotients by it. -/
theorem lcmStep_eq (hm : 0 ≤ m) (hn : 0 ≤ n) (h : ¬ (m = 0 ∧ n = 0)) :
    gcdStep m n * (m.tdiv (gcdStep m n) * n.tdiv (gcdStep m n)) = lcmStep m n := by
  have hg : gcdStep m n ≠ 0 := (gcdStep_pos h).ne'
  obtain ⟨m', hm'⟩ : gcdStep m n ∣ m := Int.gcd_dvd_left m n
  obtain ⟨n', hn'⟩ : gcdStep m n ∣ n := Int.gcd_dvd_right m n
  have hmq : m.tdiv (gcdStep m n) = m' := Int.tdiv_eq_of_eq_mul_right hg hm'
  have hnq : n.tdiv (gcdStep m n) = n' := Int.tdiv_eq_of_eq_mul_right hg hn'
  have hproduct : gcdStep m n * lcmStep m n = m * n := by
    have hnat := congrArg (Nat.cast : Nat → Int) (Int.gcd_mul_lcm m n)
    rw [Nat.cast_mul, Nat.cast_mul, Int.natAbs_of_nonneg hm, Int.natAbs_of_nonneg hn] at hnat
    exact hnat
  rw [hmq, hnq]
  refine mul_left_cancel₀ hg (Eq.trans ?_ hproduct.symm)
  calc gcdStep m n * (gcdStep m n * (m' * n'))
      = (gcdStep m n * m') * (gcdStep m n * n') := by ring
    _ = m * n := by rw [← hm', ← hn']

/-- Numbers that are not below zero are their own absolute values. -/
theorem gcd_pair (hm : 0 ≤ m) (hn : 0 ≤ n) :
    ∀ᶠ fuel in atTop, ∀ x y : Number, x.IsInteger → y.IsInteger → x.intValue = m → y.intValue = n →
      Gives (gcd fuel [x.toNum, y.toNum]) (gcdStep m n) := by
  filter_upwards [gcd_gives [m, n]] with fuel hfuel x y hx hy hxm hyn
  have hleast : ∀ z ∈ [x, y], ¬ z.IsLeastFixnum :=
    List.forall_mem_cons.mpr ⟨not_isLeastFixnum hx (hxm ▸ hm),
      List.forall_mem_singleton.mpr (not_isLeastFixnum hy (hyn ▸ hn))⟩
  have hgives := hfuel [x, y] (by simp [hx, hy]) hleast (by rw [← hxm, ← hyn]; rfl)
  simpa [gcdStep, abs_of_nonneg hm, abs_of_nonneg hn] using hgives

theorem lcm2_computes (hm : 0 ≤ m) (hn : 0 ≤ n) (h : ¬ (m = 0 ∧ n = 0)) :
    Computes lcm2 lcmStep m n := by
  have hpos := gcdStep_pos h
  filter_upwards [gcd_pair hm hn] with fuel hfuel x y hx hy hxm hyn
  obtain ⟨cd, hrun, hcd, hcdv⟩ := hfuel x y hx.1 hy.1 hxm hyn
  obtain ⟨q, hqrun, hq, hqv⟩ := quotient_gives_of_nonneg hx.1 hcd.1 (hxm ▸ hm) (by omega)
  obtain ⟨s, hsrun, hs, hsv⟩ := quotient_gives_of_nonneg hy.1 hcd.1 (hyn ▸ hn) (by omega)
  obtain ⟨p, hprun, hp, hpv⟩ := multiply_gives hq.1 hs.1
  rw [lcm2, hrun, ok_bind, hqrun, ok_bind, hsrun, ok_bind, hprun, ok_bind, ← lcmStep_eq hm hn h]
  have hgives := multiply_gives hcd.1 hp.1
  rw [hpv, hqv, hsv, hcdv, hxm, hyn] at hgives
  exact hgives

/-- Two zeros have no quotients by their greatest common divisor. -/
theorem lcm2_zeros : ∀ᶠ fuel in atTop, ∀ x y : Number, x.IsInteger → y.IsInteger →
    x.intValue = 0 → y.intValue = 0 → ∃ e, lcm2 fuel x.toNum y.toNum = .error e := by
  filter_upwards [gcd_pair le_rfl le_rfl] with fuel hfuel x y hx hy hx0 hy0
  obtain ⟨cd, hrun, hcd, hcdv⟩ := hfuel x y hx hy hx0 hy0
  obtain ⟨e, he⟩ := quotient_zero hx hcd.1 hcdv
  exact ⟨e, by rw [lcm2, hrun, ok_bind, he, error_bind]⟩

/-- As long as not both numbers are zero, a step keeps the number of zeros. -/
theorem count_lcmStep (h : ¬ (m = 0 ∧ n = 0)) (ns : List Int) :
    (lcmStep m n :: ns).count 0 = (m :: n :: ns).count 0 := by
  have hzero : lcmStep m n = 0 ↔ m = 0 ∨ n = 0 := by
    rw [lcmStep, Int.natCast_eq_zero, Int.lcm_eq_zero_iff]
  simp only [List.count_cons, beq_iff_eq, hzero]
  split_ifs <;> omega

theorem foldsIn_lcm (hm : 0 ≤ m) (hns : ∀ n ∈ ns, 0 ≤ n) (hcount : (m :: ns).count 0 ≤ 1) :
    FoldsIn (Computes lcm2 lcmStep) lcmStep m ns := by
  induction ns generalizing m with
  | nil => trivial
  | cons n ns ih =>
    obtain ⟨hn, hns⟩ := List.forall_mem_cons.mp hns
    have h : ¬ (m = 0 ∧ n = 0) := by
      rintro ⟨rfl, rfl⟩
      simp only [List.count_cons_self] at hcount
      omega
    exact ⟨lcm2_computes hm hn h, ih (Int.natCast_nonneg _) hns (by rwa [count_lcmStep h])⟩

theorem fold_lcm_error (hm : 0 ≤ m) (hns : ∀ n ∈ ns, 0 ≤ n) (hcount : 1 < (m :: ns).count 0) :
    ∀ᶠ fuel in atTop, ∀ (x : Number) (rs : List Number), x.Canonical → x.intValue = m →
      (∀ r ∈ rs, r.Canonical) → rs.map Number.intValue = ns →
        ∃ e, (rs.map Number.toNum).foldlM (lcm2 fuel) x.toNum = .error e := by
  induction ns generalizing m with
  | nil =>
    simp only [List.count_cons, List.count_nil] at hcount
    split at hcount <;> omega
  | cons n ns ih =>
    obtain ⟨hn, hns⟩ := List.forall_mem_cons.mp hns
    by_cases h : m = 0 ∧ n = 0
    · filter_upwards [lcm2_zeros] with fuel hfuel x rs hx hxm hrs hval
      obtain ⟨r, rs', rfl, hr, -⟩ := List.map_eq_cons_iff.mp hval
      obtain ⟨e, he⟩ := hfuel x r hx.1 (hrs r List.mem_cons_self).1 (hxm.trans h.1) (hr.trans h.2)
      exact ⟨e, by rw [List.map_cons, List.foldlM_cons, he, error_bind]⟩
    · filter_upwards [(lcm2_computes hm hn h).foldlM_cons,
        ih (m := lcmStep m n) (Int.natCast_nonneg _) hns (by rwa [count_lcmStep h])] with
        fuel hstep hrest x rs hx hxm hrs hval
      obtain ⟨s, rs', hs, hsval, hrsc, hrs', heq⟩ := hstep x rs ns hx hxm hrs hval
      rw [heq]
      exact hrest s rs' hs hsval hrsc hrs'

/-! ## Powers -/

section Powers

variable {x y : Number}

theorem evenP_integer (hy : y.IsInteger) :
    y.toNum.evenP = .ok (decide (y.intValue.tmod 2 = 0)) := by
  obtain ⟨r, hrun, hr, hval⟩ :=
    remainder_gives (y := .fixnum 2 (by decide)) hy trivial (by decide : (2 : Int) ≠ 0)
  have hrun' : y.toNum.remainder (.fixnum 2) = .ok r.toNum := hrun
  rw [Num.evenP, hrun', ok_bind, zeroP_integer hr.1, hval]
  rfl

theorem square_gives (hx : x.IsInteger) : Gives (square x.toNum) (x.intValue * x.intValue) :=
  binaryMultiply_gives hx hx

/-- **Repeated squaring.**  The exponent is halved in every call. -/
theorem expt2_gives {fuel : Nat} (hx : x.IsInteger) (hy : y.IsInteger) (hy0 : 0 ≤ y.intValue)
    (hfuel : y.intValue < fuel) :
    Gives (expt2 fuel x.toNum y.toNum) (x.intValue ^ y.intValue.toNat) := by
  induction fuel generalizing y with
  | zero => omega
  | succ fuel ih =>
    rw [expt2, zeroP_integer hy, evenP_integer hy, ok_bind]
    by_cases hyz : y.intValue = 0
    · rw [if_pos (decide_eq_true hyz), hyz, Int.toNat_zero, pow_zero]
      exact gives_fixnum (by decide)
    rw [if_neg (by simpa using hyz)]
    obtain ⟨q, hqrun, hq, hqv⟩ := quotient_gives_of_nonneg (y := .fixnum 2 (by decide)) hy trivial hy0
      (by decide : (2 : Int) ≠ 0)
    have hqrun' : y.toNum.quotient (.fixnum 2) = .ok q.toNum := hqrun
    have hqv' : q.intValue = y.intValue.tdiv 2 := hqv
    have hhalf := Int.mul_tdiv_add_tmod y.intValue 2
    have hmod := Int.tmod_lt_of_pos y.intValue (by decide : (0 : Int) < 2)
    have hmod0 := Int.tmod_nonneg 2 hy0
    obtain ⟨p, hprun, hp, hpv⟩ := ih hq.1 (by omega) (by omega)
    obtain ⟨s, hsrun, hs, hsv⟩ := square_gives hp.1
    rw [hpv, ← pow_add] at hsv
    by_cases heven : y.intValue.tmod 2 = 0
    · rw [if_pos (decide_eq_true heven), hqrun', ok_bind, hprun, ok_bind, hsrun]
      refine ⟨s, rfl, hs, hsv.trans ?_⟩
      congr 1
      omega
    · rw [if_neg (by simpa using heven), hqrun', ok_bind, hprun, ok_bind, hsrun, ok_bind]
      have hgives := binaryMultiply_gives hx hs.1
      rw [hsv, ← pow_succ'] at hgives
      have hexp : q.intValue.toNat + q.intValue.toNat + 1 = y.intValue.toNat := by omega
      rwa [hexp] at hgives

/-- An exponent that is a natural number is never one of the others. -/
theorem expt_gives (others : Num → Num → Result Num) {fuel : Nat} (hx : x.IsInteger)
    (hy : y.IsInteger) (hy0 : 0 ≤ y.intValue) (hfuel : y.intValue < fuel) :
    Gives (expt others fuel x.toNum y.toNum) (x.intValue ^ y.intValue.toNat) := by
  have hinexact : y.toNum.inexactP = false := by
    cases y with
    | fixnum v hv => rfl
    | integer a => simp [Number.toNum, Num.inexactP, a.isInt.isInteger]
    | real r => exact hy.elim
  have hinteger : y.toNum.integerP = .ok true := by
    cases y with
    | fixnum v hv => rfl
    | integer a => exact if_pos a.isInt.isInteger
    | real r => exact hy.elim
  rw [expt, negativeP_integer hy, ok_bind, if_neg (by simpa using hy0), hinexact, hinteger, ok_bind,
    if_neg Bool.false_ne_true, if_pos rfl, ite_self]
  exact expt2_gives hx hy hy0 hfuel

end Powers

/-! ## All numbers -/

theorem gcd_iff (hxs : ∀ x ∈ xs, x.IsInteger) :
    (∃ g, IsGcd (xs.map Number.intValue) g ∧
        ∀ᶠ fuel in atTop, Gives (gcd fuel (xs.map Number.toNum)) g) ↔
      ∀ x ∈ xs, ¬ x.IsLeastFixnum := by
  constructor
  · rintro ⟨g, -, hgives⟩
    by_contra hleast
    obtain ⟨fuel, hfuel⟩ := hgives.exists
    obtain ⟨e, he⟩ := gcd_error hxs hleast fuel
    rw [he] at hfuel
    exact not_gives_error e g hfuel
  · intro hleast
    refine ⟨_, isGcd_foldl _, ?_⟩
    filter_upwards [gcd_gives (xs.map Number.intValue)] with fuel hfuel
    exact hfuel xs hxs hleast rfl

theorem lcm_iff (hxs : ∀ x ∈ xs, x.IsInteger) :
    (∃ m, IsLcm (xs.map Number.intValue) m ∧
        ∀ᶠ fuel in atTop, Gives (lcm fuel (xs.map Number.toNum)) m) ↔
      (∀ x ∈ xs, ¬ x.IsLeastFixnum) ∧ (xs.map Number.intValue).count 0 ≤ 1 := by
  have hnonneg : ∀ n ∈ (xs.map Number.intValue).map fun n => |n|, 0 ≤ n :=
    List.forall_mem_map.mpr fun n _ => abs_nonneg n
  have hcount : (1 :: (xs.map Number.intValue).map fun n => |n|).count 0 =
      (xs.map Number.intValue).count 0 := by
    rw [List.count_cons_of_ne (by decide), List.count_eq_countP, List.countP_map,
      List.count_eq_countP]
    exact List.countP_congr fun n _ => by simp
  have hone : (Number.fixnum 1 (by decide)).Canonical := canonical_fixnum _
  constructor
  · rintro ⟨m, -, hgives⟩
    by_cases hleast : ∀ x ∈ xs, ¬ x.IsLeastFixnum
    · refine ⟨hleast, ?_⟩
      by_contra hzeros
      have herror := fold_lcm_error zero_le_one hnonneg (by omega)
      obtain ⟨fuel, hfuel, hfail⟩ := (hgives.and herror).exists
      obtain ⟨rs, hruns, habs⟩ := mapM_abs hxs hleast
      obtain ⟨e, he⟩ := hfail _ rs hone rfl habs.canonical habs.value
      rw [lcm, hruns, ok_bind] at hfuel
      exact not_gives_error e m (he ▸ hfuel)
    · obtain ⟨fuel, hfuel⟩ := hgives.exists
      obtain ⟨e, he⟩ := mapM_abs_error hxs hleast
      rw [lcm, he, error_bind] at hfuel
      exact absurd hfuel (not_gives_error e m)
  · rintro ⟨hleast, hzeros⟩
    refine ⟨_, isLcm_foldl _, ?_⟩
    filter_upwards [fold_gives (foldsIn_lcm zero_le_one hnonneg (by omega))] with fuel hfuel
    obtain ⟨rs, hruns, habs⟩ := mapM_abs hxs hleast
    rw [lcm, hruns, ok_bind]
    exact hfuel _ rs hone rfl habs.canonical habs.value

/-- **Integer division and number theory.**  Everything is exact and in canonical form, except
for the least fixnum: it has no absolute value, no quotient by -1 and no place in a list for
`gcd` or `lcm`; and `lcm` takes one zero only. -/
theorem number_theory (others : Num → Num → Result Num) {a b n : Number} {xs : List Number}
    (ha : a.IsInteger) (hb : b.IsInteger) (hn : n.IsInteger) (hxs : ∀ x ∈ xs, x.IsInteger) :
    (Gives a.toNum.abs |a.intValue| ↔ ¬ a.IsLeastFixnum) ∧
      (b.intValue ≠ 0 →
        (Gives (a.toNum.quotient b.toNum) (a.intValue.tdiv b.intValue) ↔
          ¬ (a.IsLeastFixnum ∧ b.toNum = .fixnum (-1))) ∧
        Gives (a.toNum.remainder b.toNum) (a.intValue.tmod b.intValue) ∧
        Gives (a.toNum.modulo b.toNum) (a.intValue.fmod b.intValue)) ∧
      ((∃ g, IsGcd (xs.map Number.intValue) g ∧
          ∀ᶠ fuel in atTop, Gives (gcd fuel (xs.map Number.toNum)) g) ↔
        ∀ x ∈ xs, ¬ x.IsLeastFixnum) ∧
      ((∃ m, IsLcm (xs.map Number.intValue) m ∧
          ∀ᶠ fuel in atTop, Gives (lcm fuel (xs.map Number.toNum)) m) ↔
        (∀ x ∈ xs, ¬ x.IsLeastFixnum) ∧ (xs.map Number.intValue).count 0 ≤ 1) ∧
      (0 ≤ n.intValue → ∀ᶠ fuel in atTop,
        Gives (expt others fuel a.toNum n.toNum) (a.intValue ^ n.intValue.toNat)) := by
  refine ⟨abs_gives ha, fun h0 => ⟨quotient_gives ha hb h0, remainder_gives ha hb h0,
    modulo_gives ha hb h0⟩, gcd_iff hxs, lcm_iff hxs, fun hn0 => ?_⟩
  filter_upwards [eventually_gt_atTop n.intValue.toNat] with fuel hfuel
  exact expt_gives others ha hn hn0 (by omega)

theorem number_theory_twelve :
    Gives (Num.quotient (.fixnum 12) (.fixnum (-5))) (-2) ∧
      Gives (Num.modulo (.fixnum 12) (.fixnum (-5))) (-3) ∧
      (∃ g, IsGcd [12, -18] g ∧
        ∀ᶠ fuel in atTop, Gives (gcd fuel [.fixnum 12, .fixnum (-18)]) g) ∧
      ∀ᶠ fuel in atTop, Gives (expt (fun x _ => .ok x) fuel (.fixnum 12) (.fixnum 3)) 1728 := by
  have hxs : ∀ x ∈ [Number.fixnum 12 (by decide), Number.fixnum (-18) (by decide)], x.IsInteger :=
    List.forall_mem_cons.mpr ⟨trivial, List.forall_mem_singleton.mpr trivial⟩
  obtain ⟨-, hdivision, hgcd, -, hpower⟩ := @number_theory (fun x _ => .ok x)
    (.fixnum 12 (by decide)) (.fixnum (-5) (by decide)) (.fixnum 3 (by decide)) _ trivial trivial
    trivial hxs
  obtain ⟨hquotient, -, hmodulo⟩ := hdivision (by decide : (-5 : Int) ≠ 0)
  refine ⟨hquotient.mpr fun h => ?_, hmodulo, hgcd.mpr ?_, hpower (by decide : (0 : Int) ≤ 3)⟩
  · exact absurd (Num.fixnum.inj h.1) (by decide)
  · exact List.forall_mem_cons.mpr ⟨fun h => absurd (Num.fixnum.inj h) (by decide),
      List.forall_mem_singleton.mpr fun h => absurd (Num.fixnum.inj h) (by decide)⟩

/-- The least fixnum, and two zeros. -/
theorem least_fixnum_raises :
    ¬ Gives (Num.abs (.fixnum fixnumMin)) |fixnumMin| ∧
      ¬ Gives (Num.quotient (.fixnum fixnumMin) (.fixnum (-1))) (fixnumMin.tdiv (-1)) ∧
      (∀ fuel, ¬ Gives (gcd fuel [.fixnum fixnumMin]) |fixnumMin|) ∧
      ∀ fuel, ¬ Gives (lcm fuel [.fixnum 0, .fixnum 0]) 0 := by
  refine ⟨not_gives_error _ _, not_gives_error _ _, fun fuel => not_gives_error _ _, fun fuel => ?_⟩
  cases fuel with
  | zero => exact not_gives_error .diverges _
  | succ fuel => exact not_gives_error (.divideByZero "fixnum divide by zero") _

end Idio
