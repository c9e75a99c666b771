/-
  Comparison.lean --- the comparison primitives on numbers.

  `lt`, `le`, `eq`, `ne`, `ge` and `gt` take one number or more and compare each with
  the next.  A list of fixnums is compared as machine words; with a bignum among
  them all become bignums, and an integer that meets a real becomes a real of 18
  digits first.

  So the comparison is the order of the values among integers, and among numbers
  each of which some real in normal form stands for (`Comparable`).  An integer of
  more digits meets a real with its first 18 digits only.  That is an order all the
  same, but equality is not transitive where two integers differ in the digits that
  are cut off (`comparison_total_order`, `eq_not_transitive`).
-/
import Idio.Number

set_option autoImplicit false

namespace Idio

open Bignum Decimal

/-! ## The primitives -/

/-- The loop of the comparison primitives: each argument with the next. -/
def cmpChain {α : Type} (cmp : α → α → Result Bool) : α → List α → Result Bool
  | _, [] => .ok true
  | c, h :: args => do
      if ← cmp c h then cmpChain cmp h args
      else .ok false

/-- `IDIO_DEFINE_ARITHMETIC_CMP_PRIMITIVE1V`. -/
def arithmeticCmp (fixnumCmp : Int → Int → Bool) (bignumCmp : Bignum → Bignum → Result Bool)
    (n1 : Num) (args : List Num) : Result Bool :=
  if n1.isBignum || args.any Num.isBignum then
    cmpChain bignumCmp n1.toBignum (args.map Num.toBignum)
  else
    cmpChain (fun c h => .ok (fixnumCmp c h)) n1.fixnumVal (args.map Num.fixnumVal)

/-- `lt`. -/
def Num.lt : Num → List Num → Result Bool :=
  arithmeticCmp (fun c h => decide (c < h)) realLtP

/-- `le`: `r <= h => ! h < r`. -/
def Num.le : Num → List Num → Result Bool :=
  arithmeticCmp (fun c h => decide (c ≤ h)) (fun r h => (realLtP h r).map not)

/-- `eq`. -/
def Num.eq : Num → List Num → Result Bool :=
  arithmeticCmp (fun c h => decide (c = h)) realEqualP

/-- `ne`. -/
def Num.ne : Num → List Num → Result Bool :=
  arithmeticCmp (fun c h => decide (c ≠ h)) (fun r h => (realEqualP r h).map not)

/-- `ge`: `r >= h => ! r < h`. -/
def Num.ge : Num → List Num → Result Bool :=
  arithmeticCmp (fun c h => decide (c ≥ h)) (fun r h => (realLtP r h).map not)

/-- `gt`: `r > h => h < r`. -/
def Num.gt : Num → List Num → Result Bool :=
  arithmeticCmp (fun c h => decide (c > h)) (fun r h => realLtP h r)

/-! ## Comparable numbers -/

/-- Some real in normal form stands for the number. -/
def Number.RealValued (x : Number) : Prop := ∃ r : NormalReal, r.toRat = x.value

/-- Numbers that compare by their values: integers only, or only numbers that a
real in normal form stands for. -/
def Comparable (l : List Number) : Prop :=
  (∀ x ∈ l, x.IsInteger) ∨ (∀ x ∈ l, x.RealValued)

theorem Comparable.mono {l k : List Number} (h : Comparable l) (hk : ∀ x ∈ k, x ∈ l) :
    Comparable k := by
  rcases h with h | h
  · exact Or.inl fun x hx => h x (hk x hx)
  · exact Or.inr fun x hx => h x (hk x hx)

/-- The real that the code compares such a number by. -/
theorem Number.RealValued.realArgument {x : Number} (h : x.RealValued) :
    ∃ r : NormalReal, realArgument x.toNum.toBignum = .ok r.bn ∧ r.toRat = x.value ∧
      (x.Exact → r.inexact = false) := by
  have integer (n : Int) (hi : IsInt x.toNum.toBignum n) (hv : x.value = n) :
      ∃ r : NormalReal, Bignum.realArgument x.toNum.toBignum = .ok r.bn ∧ r.toRat = x.value ∧
        (x.Exact → r.inexact = false) := by
    obtain ⟨r, hr⟩ := h
    obtain ⟨r', hrun, hval, hin⟩ := toReal_exact hi (hr.trans hv)
    refine ⟨r', ?_, by rw [hval, hv], fun _ => hin⟩
    rw [Bignum.realArgument, hi.isInteger, if_pos rfl, hrun]
  cases x with
  | fixnum v hv => exact integer v (fixnum_isInt hv) rfl
  | integer a => exact integer a.toInt a.isInt rfl
  | real r => exact ⟨r, rfl, rfl, fun hx => hx⟩

/-- A comparison of reals that begins with `realArgument` compares what it
returns. -/
theorem realLtP_of_arguments {a b : Bignum} {r s : NormalReal}
    (hab : (a.flags.integer && b.flags.integer) = false)
    (ha : realArgument a = .ok r.bn) (hb : realArgument b = .ok s.bn) :
    realLtP a b = realLtP r.bn s.bn := by
  have hargs : ∀ u : NormalReal, realArgument u.bn = .ok u.bn := fun u => rfl
  simp only [realLtP, hab, ha, hb, hargs, NormalReal.integer_eq, Bool.and_self,
    Bool.false_eq_true, if_false]

theorem realEqualP_of_arguments {a b : Bignum} {r s : NormalReal}
    (hab : (a.flags.integer && b.flags.integer) = false)
    (ha : realArgument a = .ok r.bn) (hb : realArgument b = .ok s.bn) :
    realEqualP a b = realEqualP r.bn s.bn := by
  have hargs : ∀ u : NormalReal, realArgument u.bn = .ok u.bn := fun u => rfl
  simp only [realEqualP, hab, ha, hb, hargs, NormalReal.integer_eq, Bool.and_self,
    Bool.false_eq_true, if_false]

theorem realLtP_integers {a b : Bignum} {m n : Int} (ha : IsInt a m) (hb : IsInt b n) :
    realLtP a b = .ok (decide (m < n)) := by
  rw [realLtP, ha.isInteger, hb.isInteger, Bool.and_self, if_pos rfl, ltP_isInt ha hb]

theorem realEqualP_integers {a b : Bignum} {m n : Int} (ha : IsInt a m) (hb : IsInt b n) :
    realEqualP a b = .ok (decide (m = n)) := by
  rw [realEqualP, ha.isInteger, hb.isInteger, Bool.and_self, if_pos rfl, equalP_isInt ha hb]

theorem Number.integer_flag {x : Number} (h : x.toNum.toBignum.flags.integer = true) :
    x.IsInteger := by
  cases x with
  | fixnum v hv => exact trivial
  | integer a => exact trivial
  | real r => simp [Number.toNum, Num.toBignum] at h

/-- Comparable numbers: `idio_bignum_real_lt_p` is the order of the values. -/
theorem realLtP_value {x y : Number} (h : Comparable [x, y]) :
    realLtP x.toNum.toBignum y.toNum.toBignum = .ok (decide (x.value < y.value)) := by
  by_cases hint : x.IsInteger ∧ y.IsInteger
  · simp [realLtP_integers hint.1.isInt hint.2.isInt, hint.1.value_eq, hint.2.value_eq]
  · have hreal := h.resolve_left (fun h => hint ⟨h x (by simp), h y (by simp)⟩)
    obtain ⟨r, hr, hrv, -⟩ := (hreal x (by simp)).realArgument
    obtain ⟨s, hs, hsv, -⟩ := (hreal y (by simp)).realArgument
    have hflag : (x.toNum.toBignum.flags.integer && y.toNum.toBignum.flags.integer) = false := by
      rw [Bool.and_eq_false_iff]
      by_contra hcon
      rw [not_or, Bool.not_eq_false, Bool.not_eq_false] at hcon
      exact hint ⟨x.integer_flag hcon.1, y.integer_flag hcon.2⟩
    rw [realLtP_of_arguments hflag hr hs, realLtP_normal, hrv, hsv]

/-- Comparable exact numbers: `idio_bignum_real_equal_p` is equality of the values. -/
theorem realEqualP_value {x y : Number} (h : Comparable [x, y]) (hx : x.Exact) (hy : y.Exact) :
    realEqualP x.toNum.toBignum y.toNum.toBignum = .ok (decide (x.value = y.value)) := by
  by_cases hint : x.IsInteger ∧ y.IsInteger
  · simp [realEqualP_integers hint.1.isInt hint.2.isInt, hint.1.value_eq, hint.2.value_eq]
  · have hreal := h.resolve_left (fun h => hint ⟨h x (by simp), h y (by simp)⟩)
    obtain ⟨r, hr, hrv, hrx⟩ := (hreal x (by simp)).realArgument
    obtain ⟨s, hs, hsv, hsx⟩ := (hreal y (by simp)).realArgument
    have hflag : (x.toNum.toBignum.flags.integer && y.toNum.toBignum.flags.integer) = false := by
      rw [Bool.and_eq_false_iff]
      by_contra hcon
      rw [not_or, Bool.not_eq_false, Bool.not_eq_false] at hcon
      exact hint ⟨x.integer_flag hcon.1, y.integer_flag hcon.2⟩
    have hin : r.inexact = s.inexact := by rw [hrx hx, hsx hy]
    rw [realEqualP_of_arguments hflag hr hs, realEqualP_normal hin, hrv, hsv]

/-! ## The primitives on comparable numbers -/

/-- The loop decides whether each argument is related to the next. -/
theorem cmpChain_eq {α : Type} {cmp : α → α → Result Bool} {R : ℚ → ℚ → Prop} [DecidableRel R]
    {f : Number → α} {x : Number} {xs : List Number}
    (h : ∀ a ∈ x :: xs, ∀ b ∈ x :: xs, cmp (f a) (f b) = .ok (decide (R a.value b.value))) :
    cmpChain cmp (f x) (xs.map f) =
      .ok (decide (List.IsChain R ((x :: xs).map Number.value))) := by
  induction xs generalizing x with
  | nil => simp [cmpChain]
  | cons y ys ih =>
    have hxy := h x (by simp) y (by simp)
    have hrest := ih (fun a ha b hb =>
      h a (List.mem_cons_of_mem x ha) b (List.mem_cons_of_mem x hb))
    simp only [List.map_cons, cmpChain, hxy, bind, Except.bind] at hrest ⊢
    rw [hrest]
    by_cases hR : R x.value y.value <;> simp [hR]

/-- A comparison primitive whose two cases compare by `R` decides whether the
values of its arguments are a chain of `R`. -/
theorem arithmeticCmp_eq {fixnumCmp : Int → Int → Bool}
    {bignumCmp : Bignum → Bignum → Result Bool} {R : ℚ → ℚ → Prop} [DecidableRel R]
    {x : Number} {xs : List Number}
    (hfixnum : ∀ v w : Int, fixnumCmp v w = decide (R v w))
    (hbignum : ∀ a ∈ x :: xs, ∀ b ∈ x :: xs,
      bignumCmp a.toNum.toBignum b.toNum.toBignum = .ok (decide (R a.value b.value))) :
    arithmeticCmp fixnumCmp bignumCmp x.toNum (xs.map Number.toNum) =
      .ok (decide (List.IsChain R ((x :: xs).map Number.value))) := by
  unfold arithmeticCmp
  split
  · rw [List.map_map]
    exact @cmpChain_eq _ bignumCmp R _ (fun a => a.toNum.toBignum) x xs hbignum
  · rename_i hnone
    have hfix : ∀ a ∈ x :: xs, a.value = a.toNum.fixnumVal := by
      intro a ha
      have hnb : a.toNum.isBignum = false := by
        simp only [Bool.or_eq_true, List.any_eq_true, List.mem_map, not_or] at hnone
        rcases List.mem_cons.mp ha with rfl | ha'
        · simpa using hnone.1
        · by_contra hb
          exact hnone.2 ⟨a.toNum, ⟨a, ha', rfl⟩, by simpa using hb⟩
      cases a with
      | fixnum v hv => rfl
      | integer a => simp [Number.toNum, Num.isBignum] at hnb
      | real r => simp [Number.toNum, Num.isBignum] at hnb
    rw [List.map_map]
    exact @cmpChain_eq _ (fun c h => .ok (fixnumCmp c h)) R _ (fun a => a.toNum.fixnumVal) x xs
      (fun a ha b hb => by simp only [hfixnum, hfix a ha, hfix b hb])

theorem Comparable.pair {l : List Number} (h : Comparable l) {a b : Number} (ha : a ∈ l)
    (hb : b ∈ l) : Comparable [a, b] :=
  h.mono (by simp [ha, hb])

/-- **The comparison primitives compare values**: on comparable exact numbers each
of the six decides whether the values of its arguments are a chain of its
relation. -/
theorem comparison_primitives {x : Number} {xs : List Number} (h : Comparable (x :: xs))
    (hexact : ∀ a ∈ x :: xs, a.Exact) :
    Num.lt x.toNum (xs.map Number.toNum) =
        .ok (decide (List.IsChain (· < ·) ((x :: xs).map Number.value))) ∧
      Num.le x.toNum (xs.map Number.toNum) =
        .ok (decide (List.IsChain (· ≤ ·) ((x :: xs).map Number.value))) ∧
      Num.eq x.toNum (xs.map Number.toNum) =
        .ok (decide (List.IsChain (· = ·) ((x :: xs).map Number.value))) ∧
      Num.ne x.toNum (xs.map Number.toNum) =
        .ok (decide (List.IsChain (· ≠ ·) ((x :: xs).map Number.value))) ∧
      Num.ge x.toNum (xs.map Number.toNum) =
        .ok (decide (List.IsChain (· ≥ ·) ((x :: xs).map Number.value))) ∧
      Num.gt x.toNum (xs.map Number.toNum) =
        .ok (decide (List.IsChain (· > ·) ((x :: xs).map Number.value))) := by
  refine ⟨arithmeticCmp_eq (by simp) fun a ha b hb => realLtP_value (h.pair ha hb),
    arithmeticCmp_eq (by simp) fun a ha b hb => ?_,
    arithmeticCmp_eq (by simp) fun a ha b hb =>
      realEqualP_value (h.pair ha hb) (hexact a ha) (hexact b hb),
    arithmeticCmp_eq (by simp) fun a ha b hb => ?_,
    arithmeticCmp_eq (by simp) fun a ha b hb => ?_,
    arithmeticCmp_eq (by simp) fun a ha b hb => realLtP_value (h.pair hb ha)⟩
  · rw [realLtP_value (h.pair hb ha)]
    simp [Except.map, ← decide_not]
  · rw [realEqualP_value (h.pair ha hb) (hexact a ha) (hexact b hb)]
    simp [Except.map]
  · rw [realLtP_value (h.pair ha hb)]
    simp [Except.map, ← decide_not]

/-! ## Any exact numbers -/

/-- The comparisons of two comparable exact numbers. -/
theorem comparison_pair {x y : Number} (h : Comparable [x, y]) (hx : x.Exact) (hy : y.Exact) :
    Num.lt x.toNum [y.toNum] = .ok (decide (x.value < y.value)) ∧
      Num.eq x.toNum [y.toNum] = .ok (decide (x.value = y.value)) ∧
      Num.gt x.toNum [y.toNum] = .ok (decide (y.value < x.value)) := by
  obtain ⟨hlt, -, heq, -, -, hgt⟩ := comparison_primitives h (by simp [hx, hy])
  exact ⟨by simpa using hlt, by simpa using heq, by simpa using hgt⟩

/-- The decimal digits of an integer. -/
def Number.digits : Number → Nat
  | .fixnum v _ => decimalDigits |v|
  | .integer a => decimalDigits |a.toInt|
  | .real _ => 0

/-- What a number is compared by when one of the two is a real: its first 18 digits. -/
def Number.cut (x : Number) : ℚ := truncate sigMaxDigits x.value

instance : DecidablePred Number.IsInteger
  | .fixnum _ _ => isTrue trivial
  | .integer _ => isTrue trivial
  | .real _ => isFalse id

/-- Integers only, or numbers with integers of so few digits that exponents can count them. -/
def Convertible (l : List Number) : Prop :=
  (∀ x ∈ l, x.IsInteger) ∨ ∀ x ∈ l, (x.digits : Int) ≤ beMax + 1

/-- Integers only, or numbers with no two integers that differ after the first 18 digits alone. -/
def ToldApart (l : List Number) : Prop :=
  (∀ x ∈ l, x.IsInteger) ∨
    ∀ x ∈ l, ∀ y ∈ l, x.IsInteger → y.IsInteger → x.cut = y.cut → x.value = y.value

theorem Convertible.pair {l : List Number} (h : Convertible l) {a b : Number} (ha : a ∈ l)
    (hb : b ∈ l) : Convertible [a, b] := by
  rcases h with h | h
  · exact .inl (by simp [h a ha, h b hb])
  · exact .inr (by simp [h a ha, h b hb])

/-- The order by which two exact numbers are compared. -/
def Number.Below (x y : Number) : Prop :=
  if x.IsInteger ∧ y.IsInteger then x.value < y.value else x.cut < y.cut

/-- The equality by which two exact numbers are compared. -/
def Number.Same (x y : Number) : Prop :=
  if x.IsInteger ∧ y.IsInteger then x.value = y.value else x.cut = y.cut

instance (x y : Number) : Decidable (x.Below y) := inferInstanceAs (Decidable (ite _ _ _))

instance (x y : Number) : Decidable (x.Same y) := inferInstanceAs (Decidable (ite _ _ _))

theorem Number.cut_mono {x y : Number} (h : x.value ≤ y.value) : x.cut ≤ y.cut :=
  truncate_mono (by decide) h

/-- The real that a number is compared by. -/
theorem Number.realArgument_cut {x : Number} (h : (x.digits : Int) ≤ beMax + 1) (hx : x.Exact) :
    ∃ r : NormalReal, realArgument x.toNum.toBignum = .ok r.bn ∧ r.toRat = x.cut ∧
      r.inexact = false := by
  have integer (n : Int) (hi : IsInt x.toNum.toBignum n) (hv : x.value = n)
      (hd : x.digits = decimalDigits |n|) :
      ∃ r : NormalReal, Bignum.realArgument x.toNum.toBignum = .ok r.bn ∧ r.toRat = x.cut ∧
        r.inexact = false := by
    obtain ⟨r, hrun, hval, hin⟩ := toReal_truncates hi (by rw [← hd]; exact h)
    refine ⟨r, ?_, by rw [hval, Number.cut, hv], hin⟩
    rw [Bignum.realArgument, hi.isInteger, if_pos rfl, hrun]
  cases x with
  | fixnum v hv => exact integer v (fixnum_isInt hv) rfl rfl
  | integer a => exact integer a.toInt a.isInt rfl rfl
  | real r => exact ⟨r, rfl, r.truncate_toRat.symm, hx⟩

/-- The two functions behind the comparisons, of numbers one of which is a real. -/
theorem real_comparisons {x y : Number} (h : ¬ (x.IsInteger ∧ y.IsInteger))
    (hdx : (x.digits : Int) ≤ beMax + 1) (hdy : (y.digits : Int) ≤ beMax + 1) (hx : x.Exact)
    (hy : y.Exact) :
    realLtP x.toNum.toBignum y.toNum.toBignum = .ok (decide (x.cut < y.cut)) ∧
      realEqualP x.toNum.toBignum y.toNum.toBignum = .ok (decide (x.cut = y.cut)) := by
  obtain ⟨r, hr, hrv, hrx⟩ := Number.realArgument_cut hdx hx
  obtain ⟨s, hs, hsv, hsx⟩ := Number.realArgument_cut hdy hy
  have hflag : (x.toNum.toBignum.flags.integer && y.toNum.toBignum.flags.integer) = false := by
    rw [Bool.eq_false_iff]
    intro hboth
    rw [Bool.and_eq_true] at hboth
    exact h ⟨x.integer_flag hboth.1, y.integer_flag hboth.2⟩
  exact ⟨by rw [realLtP_of_arguments hflag hr hs, realLtP_normal, hrv, hsv],
    by rw [realEqualP_of_arguments hflag hr hs, realEqualP_normal (by rw [hrx, hsx]), hrv, hsv]⟩

/-- The comparisons of two exact numbers. -/
theorem comparison_exact {x y : Number} (h : Convertible [x, y]) (hx : x.Exact) (hy : y.Exact) :
    Num.lt x.toNum [y.toNum] = .ok (decide (x.Below y)) ∧
      Num.eq x.toNum [y.toNum] = .ok (decide (x.Same y)) ∧
      Num.gt x.toNum [y.toNum] = .ok (decide (y.Below x)) := by
  by_cases hint : x.IsInteger ∧ y.IsInteger
  · have hboth : ∀ a ∈ [x, y], a.IsInteger := by simp [hint]
    simp only [Number.Below, Number.Same, if_pos hint, if_pos hint.symm]
    exact comparison_pair (.inl hboth) hx hy
  · have hdigits := h.resolve_left fun h => hint ⟨h x (by simp), h y (by simp)⟩
    obtain ⟨hdx, hdy⟩ := And.intro (hdigits x (by simp)) (hdigits y (by simp))
    have hswap : ¬ (y.IsInteger ∧ x.IsInteger) := fun h => hint h.symm
    obtain ⟨hlt, heq⟩ := real_comparisons hint hdx hdy hx hy
    obtain ⟨hgt, -⟩ := real_comparisons hswap hdy hdx hy hx
    have hbignum : (x.toNum.isBignum || [y.toNum].any Num.isBignum) = true := by
      cases x with
      | real r => rfl
      | fixnum v hv =>
        cases y with
        | real r => rfl
        | fixnum w hw => exact absurd ⟨trivial, trivial⟩ hint
        | integer b => rfl
      | integer a => rfl
    simp only [Number.Below, Number.Same, if_neg hint, if_neg hswap]
    refine ⟨?_, ?_, ?_⟩
    · rw [Num.lt, arithmeticCmp, if_pos hbignum, List.map_cons, cmpChain, hlt]
      cases decide (x.cut < y.cut) <;> rfl
    · rw [Num.eq, arithmeticCmp, if_pos hbignum, List.map_cons, cmpChain, heq]
      cases decide (x.cut = y.cut) <;> rfl
    · rw [Num.gt, arithmeticCmp, if_pos hbignum, List.map_cons, cmpChain, hgt]
      cases decide (y.cut < x.cut) <;> rfl

/-- An integer that has no real to be compared by meets a real: the comparison raises a
condition. -/
theorem comparison_overflow {x y : Number} (hx : x.IsInteger) (hy : ¬ y.IsInteger)
    (hroom : ((x.digits - sigMaxDigits : Nat) : Int) ≤ beMax)
    (hnone : ∀ r : NormalReal, r.toRat ≠ x.cut) :
    Num.lt x.toNum [y.toNum] = .error exponentOverflow := by
  have hdigits : x.digits = decimalDigits |x.intValue| := by
    cases x with
    | fixnum v hv => rfl
    | integer a => rfl
    | real r => exact hx.elim
  have harg : realArgument x.toNum.toBignum = .error exponentOverflow := by
    rw [realArgument, hx.isInt.isInteger, if_pos rfl]
    rcases toReal_outcome hx.isInt (hdigits ▸ hroom) with ⟨r, -, hval, -⟩ | ⟨hrun, -⟩
    · exact absurd (by rw [hval, Number.cut, hx.value_eq]) (hnone r)
    · exact hrun
  have hflag : (x.toNum.toBignum.flags.integer && y.toNum.toBignum.flags.integer) = false := by
    rw [Bool.eq_false_iff]
    intro hboth
    rw [Bool.and_eq_true] at hboth
    exact hy (y.integer_flag hboth.2)
  have hbignum : (x.toNum.isBignum || [y.toNum].any Num.isBignum) = true := by
    cases y with
    | fixnum v hv => exact absurd trivial hy
    | integer a => exact absurd trivial hy
    | real r => rw [Bool.or_eq_true]; exact .inr rfl
  rw [Num.lt, arithmeticCmp, if_pos hbignum, List.map_cons, cmpChain, realLtP, hflag, harg]
  rfl

/-! ## The order of the exact numbers -/

/-- Of three comparisons exactly one holds, and none raises a condition. -/
def ExactlyOne (l e g : Result Bool) : Prop :=
  (l = .ok true ∧ e = .ok false ∧ g = .ok false) ∨
    (l = .ok false ∧ e = .ok true ∧ g = .ok false) ∨
    (l = .ok false ∧ e = .ok false ∧ g = .ok true)

/-- What makes comparison an order, said of three numbers: trichotomy, `eq` reflexive and
symmetric, and `lt` transitive. -/
structure OrderOn (x y z : Number) : Prop where
  trichotomy : ExactlyOne (Num.lt x.toNum [y.toNum]) (Num.eq x.toNum [y.toNum])
    (Num.gt x.toNum [y.toNum])
  refl : Num.eq x.toNum [x.toNum] = .ok true
  symm : Num.eq x.toNum [y.toNum] = .ok true → Num.eq y.toNum [x.toNum] = .ok true
  lt_trans : Num.lt x.toNum [y.toNum] = .ok true → Num.lt y.toNum [z.toNum] = .ok true →
    Num.lt x.toNum [z.toNum] = .ok true

/-- What makes the order a total one, with `eq` an equivalence that is compatible with it. -/
structure TotalOrderOn (x y z : Number) : Prop extends OrderOn x y z where
  trans : Num.eq x.toNum [y.toNum] = .ok true → Num.eq y.toNum [z.toNum] = .ok true →
    Num.eq x.toNum [z.toNum] = .ok true
  compatible : Num.eq x.toNum [y.toNum] = .ok true →
    Num.lt x.toNum [z.toNum] = Num.lt y.toNum [z.toNum] ∧
      Num.lt z.toNum [x.toNum] = Num.lt z.toNum [y.toNum]

section Order

variable {x y z : Number}

theorem Number.Same.cut (h : x.Same y) : x.cut = y.cut := by
  unfold Number.Same at h
  split at h
  · rw [Number.cut, h, Number.cut]
  · exact h

theorem Number.Below.cut (h : x.Below y) : x.cut ≤ y.cut := by
  unfold Number.Below at h
  split at h
  · exact Number.cut_mono h.le
  · exact h.le

theorem Number.below_of_cut (h : x.cut < y.cut) : x.Below y := by
  unfold Number.Below
  split
  · by_contra hle
    exact absurd h (not_lt.mpr (Number.cut_mono (not_lt.mp hle)))
  · exact h

theorem Number.same_refl (x : Number) : x.Same x := by
  unfold Number.Same
  split <;> rfl

theorem Number.Same.symm (h : x.Same y) : y.Same x := by
  by_cases hint : x.IsInteger ∧ y.IsInteger
  · rw [Number.Same, if_pos hint] at h
    rw [Number.Same, if_pos hint.symm]
    exact h.symm
  · rw [Number.Same, if_neg hint] at h
    rw [Number.Same, if_neg fun hint' => hint hint'.symm]
    exact h.symm

theorem Number.below_trichotomy (x y : Number) :
    (x.Below y ∧ ¬ x.Same y ∧ ¬ y.Below x) ∨ (¬ x.Below y ∧ x.Same y ∧ ¬ y.Below x) ∨
      (¬ x.Below y ∧ ¬ x.Same y ∧ y.Below x) := by
  have hcomm : (y.IsInteger ∧ x.IsInteger) = (x.IsInteger ∧ y.IsInteger) := propext and_comm
  simp only [Number.Below, Number.Same, hcomm]
  split
  · rcases lt_trichotomy x.value y.value with h | h | h
    · exact .inl ⟨h, h.ne, h.not_gt⟩
    · exact .inr (.inl ⟨h.not_lt, h, h.symm.not_lt⟩)
    · exact .inr (.inr ⟨h.not_gt, h.ne', h⟩)
  · rcases lt_trichotomy x.cut y.cut with h | h | h
    · exact .inl ⟨h, h.ne, h.not_gt⟩
    · exact .inr (.inl ⟨h.not_lt, h, h.symm.not_lt⟩)
    · exact .inr (.inr ⟨h.not_gt, h.ne', h⟩)

theorem Number.Below.trans (hxy : x.Below y) (hyz : y.Below z) : x.Below z := by
  by_cases hall : (x.IsInteger ∧ z.IsInteger) ∧ y.IsInteger
  · rw [Number.Below, if_pos ⟨hall.1.1, hall.2⟩] at hxy
    rw [Number.Below, if_pos ⟨hall.2, hall.1.2⟩] at hyz
    rw [Number.Below, if_pos hall.1]
    exact hxy.trans hyz
  · -- one of the two is a comparison with a real
    apply Number.below_of_cut
    by_cases hxi : x.IsInteger ∧ y.IsInteger
    · have hyi : ¬ (y.IsInteger ∧ z.IsInteger) := fun h => hall ⟨⟨hxi.1, h.2⟩, hxi.2⟩
      have hlt := hyz
      rw [Number.Below, if_neg hyi] at hlt
      exact hxy.cut.trans_lt hlt
    · have hlt := hxy
      rw [Number.Below, if_neg hxi] at hlt
      exact hlt.trans_le hyz.cut

/-- Numbers that are told apart are ordered by one key. -/
theorem ToldApart.key {l : List Number} (h : ToldApart l) :
    ∃ key : Number → ℚ, ∀ x ∈ l, ∀ y ∈ l,
      (x.Below y ↔ key x < key y) ∧ (x.Same y ↔ key x = key y) := by
  rcases h with hall | hapart
  · refine ⟨Number.value, fun x hx y hy => ?_⟩
    simp only [Number.Below, Number.Same, if_pos (And.intro (hall x hx) (hall y hy)), and_self]
  · refine ⟨Number.cut, fun x hx y hy => ⟨⟨fun hlt => ?_, Number.below_of_cut⟩, Number.Same.cut,
      fun hcut => ?_⟩⟩
    · refine hlt.cut.lt_of_ne fun hcut => ?_
      unfold Number.Below at hlt
      split at hlt
      · rename_i hint
        exact hlt.ne (hapart x hx y hy hint.1 hint.2 hcut)
      · exact hlt.ne hcut
    · unfold Number.Same
      split
      · rename_i hint
        exact hapart x hx y hy hint.1 hint.2 hcut
      · exact hcut

end Order

/-- **Comparison is an order on the exact numbers**, and a total order on those that their first
18 digits tell apart. -/
theorem comparison_total_order (x y z : Number) (hx : x.Exact) (hy : y.Exact) (hz : z.Exact)
    (h : Convertible [x, y, z]) : OrderOn x y z ∧ (ToldApart [x, y, z] → TotalOrderOn x y z) := by
  have mem : x ∈ [x, y, z] ∧ y ∈ [x, y, z] ∧ z ∈ [x, y, z] := by simp
  obtain ⟨hxm, hym, hzm⟩ := mem
  obtain ⟨ltxy, eqxy, gtxy⟩ := comparison_exact (h.pair hxm hym) hx hy
  obtain ⟨ltyz, eqyz, -⟩ := comparison_exact (h.pair hym hzm) hy hz
  obtain ⟨ltxz, eqxz, -⟩ := comparison_exact (h.pair hxm hzm) hx hz
  obtain ⟨ltzx, -, -⟩ := comparison_exact (h.pair hzm hxm) hz hx
  obtain ⟨ltzy, -, -⟩ := comparison_exact (h.pair hzm hym) hz hy
  obtain ⟨-, eqyx, -⟩ := comparison_exact (h.pair hym hxm) hy hx
  obtain ⟨-, eqxx, -⟩ := comparison_exact (h.pair hxm hxm) hx hx
  have holds : ∀ {p : Prop} [Decidable p], (Except.ok (decide p) : Result Bool) = .ok true ↔ p := by
    intro p _
    rw [Except.ok.injEq, decide_eq_true_iff]
  have horder : OrderOn x y z := by
    refine ⟨?_, ?_, ?_, ?_⟩
    · rw [ltxy, eqxy, gtxy, ExactlyOne]
      rcases Number.below_trichotomy x y with h | h | h
      · exact .inl (by simp [h])
      · exact .inr (.inl (by simp [h]))
      · exact .inr (.inr (by simp [h]))
    · rw [eqxx, holds]
      exact Number.same_refl x
    · rw [eqxy, eqyx, holds, holds]
      exact Number.Same.symm
    · rw [ltxy, ltyz, ltxz, holds, holds, holds]
      exact Number.Below.trans
  refine ⟨horder, fun hapart => ⟨horder, ?_, ?_⟩⟩
  all_goals obtain ⟨key, hkey⟩ := hapart.key
  · rw [eqxy, eqyz, eqxz, holds, holds, holds, (hkey x hxm y hym).2, (hkey y hym z hzm).2,
      (hkey x hxm z hzm).2]
    exact Eq.trans
  · rw [eqxy, holds, (hkey x hxm y hym).2]
    intro hsame
    rw [ltxz, ltyz, ltzx, ltzy]
    simp only [hkey x hxm z hzm, hkey y hym z hzm, hkey z hzm x hxm, hkey z hzm y hym, hsame,
      and_self]

theorem Number.RealValued.cut_eq {x : Number} (h : x.RealValued) : x.cut = x.value := by
  obtain ⟨r, hr⟩ := h
  rw [Number.cut, ← hr, r.truncate_toRat]

/-- A fixnum of 19 digits, the real 2.5 and the fixnum 3. -/
theorem comparison_total_order_mixed :
    TotalOrderOn (.fixnum 1000000000000000001 (by decide))
      (.real (exactReal (-1) 25 (by decide) (by decide) (by decide))) (.fixnum 3 (by decide)) := by
  have hsmall : (Number.fixnum 3 (by decide)).cut = 3 := by
    apply Number.RealValued.cut_eq
    exact ⟨exactReal 0 3 (by decide) (by decide) (by decide), by
      simp [NormalReal.toRat, NormalReal.absRat, exactReal, Number.value]⟩
  have hlarge : 3 < (Number.fixnum 1000000000000000001 (by decide)).cut := by
    have hten : (Number.fixnum 10 (by decide)).cut = 10 := by
      apply Number.RealValued.cut_eq
      exact ⟨exactReal 1 1 (by decide) (by decide) (by decide), by
        simp [NormalReal.toRat, NormalReal.absRat, exactReal, Number.value]⟩
    have hle := @Number.cut_mono (.fixnum 10 (by decide)) (.fixnum 1000000000000000001 (by decide))
      (by norm_num [Number.value])
    rw [hten] at hle
    exact lt_of_lt_of_le (by norm_num) hle
  have hapart : ToldApart [.fixnum 1000000000000000001 (by decide),
      .real (exactReal (-1) 25 (by decide) (by decide) (by decide)), .fixnum 3 (by decide)] := by
    refine .inr fun x hx y hy hxi hyi hcut => ?_
    simp only [List.mem_cons, List.not_mem_nil, or_false] at hx hy
    rcases hx with rfl | rfl | rfl
    · rcases hy with rfl | rfl | rfl
      · rfl
      · exact hyi.elim
      · exact absurd (hcut.trans hsmall) hlarge.ne'
    · exact hxi.elim
    · rcases hy with rfl | rfl | rfl
      · exact absurd (hcut.symm.trans hsmall) hlarge.ne'
      · exact hyi.elim
      · rfl
  have hdigits : decimalDigits |(1000000000000000001 : Int)| ≤ 19 :=
    (decimalDigits_le_iff (abs_nonneg _)).mpr (by decide)
  refine (comparison_total_order (.fixnum 1000000000000000001 (by decide))
    (.real (exactReal (-1) 25 (by decide) (by decide) (by decide))) (.fixnum 3 (by decide))
    trivial rfl trivial (.inr fun x hx => ?_)).2 hapart
  simp only [List.mem_cons, List.not_mem_nil, or_false] at hx
  rcases hx with rfl | rfl | rfl
  · simp only [Number.digits, beMax]
    omega
  · decide
  · decide

/-- An integer of 19 digits meets a real with its first 18 digits, so the fixnums
`10 ^ 18` and `10 ^ 18 + 1` are both equal to the real `1e18`. -/
theorem eq_not_transitive :
    ¬ ∀ x y z : Number, x.Exact → y.Exact → z.Exact → TotalOrderOn x y z := by
  intro h
  have htrans := (h (.fixnum (10 ^ 18) (by decide))
    (.real (exactReal 18 1 (by decide) (by decide) (by decide)))
    (.fixnum (10 ^ 18 + 1) (by decide)) trivial rfl trivial).trans (by rfl) (by rfl)
  have hne : Num.eq (.fixnum (10 ^ 18)) [.fixnum (10 ^ 18 + 1)] = .ok false := by rfl
  have hfalse : (Except.ok false : Result Bool) = .ok true := hne.symm.trans htrans
  cases hfalse

end Idio
