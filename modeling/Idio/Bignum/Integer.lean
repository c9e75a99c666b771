/-
  Bignum/Integer.lean --- addition, subtraction and comparison of integer bignums.

  `add` and `subtract` never work on negative numbers: each turns the signs of its
  operands into a call of one or the other on absolute values, and only then runs
  the carry or the borrow loop.  Here the two loops are `addRegular` and
  `subtractRegular`, and the sign cases call those; `add_eq_source` and
  `subtract_eq_source` say that the C recursion is the same function.

  The borrow loop goes on while there is a borrow, so it would never end with the
  smaller number on the left.  It answers `Fault.diverges` there, and the proof
  that `subtract` returns is the proof that it always puts the larger first.
-/
import Idio.Bignum.Basic

set_option autoImplicit false

namespace Idio

namespace Bignum

open Positional

/-- One more segment, with the base spelled out for linear arithmetic. -/
theorem value_segLimit_cons (d : Int) (ds : Bsa) :
    value segLimit (d :: ds) = d + 1000000000000000000 * value segLimit ds := rfl

theorem segLimit_lit : segLimit = 1000000000000000000 := rfl

/-! ## Machine integers -/

/-- The loop of `idio_bignum_integer_intmax_t`; a word has at most 64 bits, so it
goes round less than 64 times. -/
def intmaxSegs : Nat → Int → Int → Bsa
  | 0, _, _ => []
  | fuel + 1, i, carry =>
      if i = 0 then []
      else
        let m := i.tmod segLimit
        let v := m + carry
        let next := (i - m).tdiv segLimit
        if carry ≠ 0 ∧ v = segLimit then 0 :: intmaxSegs fuel next 1
        else v :: intmaxSegs fuel next 0

/-- `INTMAX_MAX`. -/
def intmaxMax : Int := 9223372036854775807

/-- `INTMAX_MIN`. -/
def intmaxMin : Int := -9223372036854775808

/-- `idio_bignum_integer_intmax_t`.  The least machine integer has no negation,
so its magnitude is `INTMAX_MAX` with a carry. -/
def integerIntmaxT (i : Int) : Bignum :=
  let mc : Int × Int :=
    if i < 0 then (if i = intmaxMin then (intmaxMax, 1) else (- i, 0)) else (i, 0)
  let sig := if mc.1 ≥ segLimit then intmaxSegs 64 mc.1 mc.2 else [mc.1]
  integer (if i < 0 then bsaSetTop sig (- bsaTop sig) else sig)

variable {i : Int}

/-- Up to ten times the segment limit, a machine integer takes two segments. -/
theorem intmaxSegs_two (hlo : segLimit ≤ i) (hhi : i < 10 * segLimit) :
    intmaxSegs 64 i 0 = [i % segLimit, i / segLimit] := by
  rw [segLimit_lit] at *
  have h0 : 0 ≤ i := by omega
  have hm : i.tmod 1000000000000000000 = i % 1000000000000000000 :=
    Int.tmod_eq_emod_of_nonneg h0
  have hd : (i - i % 1000000000000000000).tdiv 1000000000000000000 =
      i / 1000000000000000000 := by
    rw [Int.tdiv_eq_ediv_of_nonneg (by omega)]
    omega
  have hq : (i / 1000000000000000000).tmod 1000000000000000000 =
      i / 1000000000000000000 := Int.tmod_eq_of_lt (by omega) (by omega)
  have hi : i ≠ 0 := by omega
  have hi' : i / 1000000000000000000 ≠ 0 := by omega
  simp [intmaxSegs, segLimit_lit, hm, hd, hq, hi, hi']

theorem magnitude_small (h0 : 0 ≤ i) (hlt : i < segLimit) : Magnitude [i] :=
  (@magnitude_append [] i).mpr ⟨digits_nil _, ⟨h0, hlt⟩, by simp⟩

theorem toInt_small (h0 : 0 ≤ i) : toInt [i] = i := by
  simp [toInt, bsaTop, not_lt.mpr h0]

/-- A machine integer below the segment limit is one segment. -/
theorem integerIntmaxT_small (h0 : 0 ≤ i) (hlt : i < segLimit) :
    integerIntmaxT i = integer [i] := by
  simp [integerIntmaxT, not_lt.mpr h0, not_le.mpr hlt]

theorem magnitude_intmaxSegs (hlo : segLimit ≤ i) (hhi : i < 10 * segLimit) :
    Magnitude (intmaxSegs 64 i 0) ∧ toInt (intmaxSegs 64 i 0) = i := by
  rw [intmaxSegs_two hlo hhi]
  have hdm := Int.emod_add_mul_ediv i segLimit
  have hm : Magnitude [i % segLimit, i / segLimit] := by
    rw [segLimit_lit] at *
    refine (@magnitude_append [i % 1000000000000000000] _).mpr ⟨digits_cons.mpr ⟨?_, ?_⟩, ?_⟩
    · rw [segLimit_lit]
      omega
    · exact digits_nil _
    · rw [segLimit_lit]
      omega
  refine ⟨hm, ?_⟩
  rw [hm.toInt_eq, value_cons, value_cons, value_nil, mul_zero, add_zero]
  exact hdm

/-- `idio_bignum_integer_intmax_t` represents every machine integer. -/
theorem integerIntmaxT_isInt (hlo : intmaxMin ≤ i) (hhi : i ≤ intmaxMax) :
    IsInt (integerIntmaxT i) i := by
  have hL : segLimit = 1000000000000000000 := rfl
  simp only [intmaxMin, intmaxMax] at hlo hhi
  have pos (j : Int) (h0 : 0 ≤ j) (hj : j ≤ 9223372036854775807) :
      IsInt (integer (if j ≥ segLimit then intmaxSegs 64 j 0 else [j])) j := by
    split
    · rename_i hge
      obtain ⟨hm, hv⟩ := magnitude_intmaxSegs hge (by omega)
      simpa only [hv] using IsInt.of_magnitude hm
    · have := IsInt.of_magnitude (magnitude_small h0 (by omega))
      simpa only [toInt_small h0] using this
  by_cases hneg : i < 0
  · by_cases hmin : i = intmaxMin
    · subst hmin
      have hsig : (integerIntmaxT intmaxMin).sig = [223372036854775808] ++ [-9] := by decide
      refine ⟨rfl, ?_, by decide⟩
      rw [hsig, normal_append]
      exact ⟨digits_cons.mpr ⟨by decide, digits_nil _⟩, by decide, by decide⟩
    · have hmin' : i ≠ -9223372036854775808 := hmin
      have h := (pos (- i) (by omega) (by omega)).negate
      simpa [integerIntmaxT, hneg, hmin, Bignum.negate, integer] using h
  · simpa [integerIntmaxT, hneg] using pos i (by omega) hhi

/-- The normal integer of a machine integer. -/
def normalIntmax (i : Int) (hlo : intmaxMin ≤ i) (hhi : i ≤ intmaxMax) : NormalInteger :=
  (integerIntmaxT_isInt hlo hhi).toNormal

@[simp] theorem normalIntmax_toInt (hlo : intmaxMin ≤ i) (hhi : i ≤ intmaxMax) :
    (normalIntmax i hlo hhi).toInt = i :=
  (integerIntmaxT_isInt hlo hhi).toNormal_toInt

/-! ## The carry loop -/

/-- One turn of the carry loop: the segment to store and the carry. -/
def addStep (ia ib carry : Int) : Int × Int :=
  let ir := ia + ib + carry
  if ir ≥ segLimit then (ir - segLimit, 1) else (ir, 0)

/-- The carry loop once `a` is exhausted. -/
def addTail : Bsa → Int → Bsa
  | [], carry => if carry = 0 then [] else [(addStep 0 0 carry).1]
  | ib :: bs, carry => (addStep 0 ib carry).1 :: addTail bs (addStep 0 ib carry).2

/-- `while (ai < al || bi < bl || carry)`; a missing segment of `b` reads as
zero. -/
def addLoop : Bsa → Bsa → Int → Bsa
  | [], bs, carry => addTail bs carry
  | ia :: as, bs, carry =>
      (addStep ia (bs.headD 0) carry).1 ::
        addLoop as bs.tail (addStep ia (bs.headD 0) carry).2

/-- A carry or a borrow. -/
def IsBit (c : Int) : Prop := c = 0 ∨ c = 1

variable {carry : Int}

theorem addStep_spec {ia ib : Int} (ha : 0 ≤ ia ∧ ia < segLimit) (hb : 0 ≤ ib ∧ ib < segLimit)
    (hc : IsBit carry) :
    (0 ≤ (addStep ia ib carry).1 ∧ (addStep ia ib carry).1 < segLimit) ∧
      IsBit (addStep ia ib carry).2 ∧
      (addStep ia ib carry).1 + 1000000000000000000 * (addStep ia ib carry).2 =
        ia + ib + carry := by
  have hL : segLimit = 1000000000000000000 := rfl
  simp only [addStep, IsBit] at *
  split <;> omega

variable {bs : Bsa}

theorem headD_digit (h : Digits segLimit bs) :
    0 ≤ bs.headD 0 ∧ bs.headD 0 < segLimit := by
  cases bs with
  | nil => exact ⟨le_refl _, segLimit_pos⟩
  | cons b bs => simpa using (digits_cons.mp h).1

theorem digits_tail (h : Digits segLimit bs) : Digits segLimit bs.tail := by
  intro d hd
  exact h d (List.mem_of_mem_tail hd)

theorem value_head_tail (bs : Bsa) :
    value segLimit bs = bs.headD 0 + 1000000000000000000 * value segLimit bs.tail := by
  cases bs with
  | nil => simp
  | cons b bs => rfl

theorem addTail_spec (hb : Digits segLimit bs) (hc : IsBit carry) :
    Digits segLimit (addTail bs carry) ∧
      value segLimit (addTail bs carry) = value segLimit bs + carry := by
  induction bs generalizing carry with
  | nil =>
    rcases hc with rfl | rfl
    · simp [addTail]
    · simp [addTail, addStep, segLimit]
  | cons b bs ih =>
    obtain ⟨hb0, hbs⟩ := digits_cons.mp hb
    obtain ⟨hd, hc', heq⟩ := addStep_spec ⟨le_refl 0, segLimit_pos⟩ hb0 hc
    obtain ⟨hds, hv⟩ := ih hbs hc'
    refine ⟨digits_cons.mpr ⟨hd, hds⟩, ?_⟩
    rw [addTail, value_segLimit_cons, hv, value_segLimit_cons]
    omega

variable {as : Bsa}

/-- The carry loop adds: digits in, digits out, values added. -/
theorem addLoop_spec (ha : Digits segLimit as) (hb : Digits segLimit bs) (hc : IsBit carry) :
    Digits segLimit (addLoop as bs carry) ∧
      value segLimit (addLoop as bs carry) = value segLimit as + value segLimit bs + carry := by
  induction as generalizing bs carry with
  | nil => simpa [addLoop] using addTail_spec hb hc
  | cons a as ih =>
    obtain ⟨ha0, has⟩ := digits_cons.mp ha
    obtain ⟨hd, hc', heq⟩ := addStep_spec ha0 (headD_digit hb) hc
    obtain ⟨hds, hv⟩ := ih has (digits_tail hb) hc'
    refine ⟨digits_cons.mpr ⟨hd, hds⟩, ?_⟩
    rw [addLoop, value_segLimit_cons, hv, value_segLimit_cons, value_head_tail bs]
    omega

theorem addTail_zero (hb : Digits segLimit bs) : addTail bs 0 = bs := by
  induction bs with
  | nil => simp [addTail]
  | cons b bs ih =>
    obtain ⟨hb0, hbs⟩ := digits_cons.mp hb
    have hstep : addStep 0 b 0 = (b, 0) := by simp [addStep, not_le.mpr hb0.2]
    rw [addTail, hstep, ih hbs]

theorem addTail_trimmed (hb : Digits segLimit bs) (ht : Trimmed bs) (hc : IsBit carry) :
    Trimmed (addTail bs carry) := by
  induction bs generalizing carry with
  | nil =>
    rcases hc with rfl | rfl
    · simp [addTail]
    · simp [addTail, addStep, segLimit]
  | cons b bs ih =>
    obtain ⟨hb0, hbs⟩ := digits_cons.mp hb
    obtain ⟨hd, hc', heq⟩ := addStep_spec ⟨le_refl 0, segLimit_pos⟩ hb0 hc
    have hrest := ih hbs ht.tail hc'
    rw [addTail]
    cases hrec : addTail bs (addStep 0 b carry).2 with
    | nil =>
      -- Nothing follows: `b` was the top segment and produced no carry.
      cases bs with
      | cons x xs => simp [addTail] at hrec
      | nil =>
        have hb1 : b ≠ 0 := trimmed_singleton.mp ht
        have hc0 : (addStep 0 b carry).2 = 0 := by
          by_contra hne
          simp [addTail, hne] at hrec
        rw [trimmed_singleton]
        rcases hc with rfl | rfl <;> omega
    | cons x xs => exact trimmed_cons_cons.mpr (hrec ▸ hrest)

/-- The carry loop never makes a leading zero out of numerals without one. -/
theorem addLoop_trimmed (ha : Digits segLimit as) (hb : Digits segLimit bs) (hta : Trimmed as)
    (htb : Trimmed bs) (hc : IsBit carry) :
    Trimmed (addLoop as bs carry) := by
  induction as generalizing bs carry with
  | nil => exact addTail_trimmed hb htb hc
  | cons a as ih =>
    obtain ⟨ha0, has⟩ := digits_cons.mp ha
    obtain ⟨hd, hc', heq⟩ := addStep_spec ha0 (headD_digit hb) hc
    have htb' : Trimmed bs.tail := by
      cases bs with
      | nil => exact trimmed_nil
      | cons b bs => exact htb.tail
    have hrest := ih has (digits_tail hb) hta.tail htb' hc'
    rw [addLoop]
    cases hrec : addLoop as bs.tail (addStep a (bs.headD 0) carry).2 with
    | nil =>
      cases as with
      | cons x xs => simp [addLoop] at hrec
      | nil =>
        have ha1 : a ≠ 0 := trimmed_singleton.mp hta
        have hbt : bs.tail = [] ∧ (addStep a (bs.headD 0) carry).2 = 0 := by
          cases hbs : bs.tail with
          | cons x xs => rw [hbs] at hrec; simp [addLoop, addTail] at hrec
          | nil =>
            refine ⟨rfl, ?_⟩
            by_contra hne
            rw [hbs, addLoop, addTail, if_neg hne] at hrec
            cases hrec
        have hb0 := headD_digit hb
        rw [trimmed_singleton]
        rcases hc with rfl | rfl <;> omega
    | cons x xs => exact trimmed_cons_cons.mpr (hrec ▸ hrest)

/-- `a + b` once neither operand is negative. -/
def addRegular (a b : Bignum) : Bignum := integer (addLoop a.sig b.sig 0)

theorem addLoop_magnitude {s t : Bsa} (hs : Magnitude s) (ht : Magnitude t) :
    Magnitude (addLoop s t 0) := by
  have hd := (addLoop_spec hs.digits ht.digits (Or.inl rfl)).1
  refine ⟨hd, ?_⟩
  rcases hs.shape with rfl | ⟨hsne, hst⟩
  · -- Zero plus `t` copies `t`.
    have hcopy : addLoop [0] t 0 = t := by
      obtain ⟨x, xs, rfl⟩ := List.exists_cons_of_ne_nil ht.nonempty
      obtain ⟨hx, hxs⟩ := digits_cons.mp ht.digits
      have hstep : addStep 0 x 0 = (x, 0) := by simp [addStep, not_le.mpr hx.2]
      simp [addLoop, hstep, addTail_zero hxs]
    rw [hcopy]
    exact ht.shape
  · rcases ht.shape with rfl | ⟨htne, htt⟩
    · -- `s` plus zero copies `s`.
      have hnil : ∀ {u : Bsa}, Digits segLimit u → addLoop u [] 0 = u := by
        intro u hu
        induction u with
        | nil => simp [addLoop, addTail]
        | cons x xs ih =>
          obtain ⟨hx, hxs⟩ := digits_cons.mp hu
          have hstep : addStep x 0 0 = (x, 0) := by simp [addStep, not_le.mpr hx.2]
          simp [addLoop, hstep, ih hxs]
      have hcopy : addLoop s [0] 0 = s := by
        obtain ⟨x, xs, rfl⟩ := List.exists_cons_of_ne_nil hsne
        obtain ⟨hx, hxs⟩ := digits_cons.mp hs.digits
        have hstep : addStep x 0 0 = (x, 0) := by simp [addStep, not_le.mpr hx.2]
        simp [addLoop, hstep, hnil hxs]
      rw [hcopy]
      exact hs.shape
    · refine Or.inr ⟨?_, addLoop_trimmed hs.digits ht.digits hst htt (Or.inl rfl)⟩
      obtain ⟨x, xs, rfl⟩ := List.exists_cons_of_ne_nil hsne
      simp [addLoop]

variable {a b : Bignum} {y x : Int}

theorem addRegular_isInt (ha : IsInt a x) (hb : IsInt b y) (hx : 0 ≤ x) (hy : 0 ≤ y) :
    IsInt (addRegular a b) (x + y) := by
  have hma := ha.magnitude hx
  have hmb := hb.magnitude hy
  have hm := addLoop_magnitude hma hmb
  refine ⟨rfl, hm.normal, ?_⟩
  have hv := (addLoop_spec hma.digits hmb.digits (Or.inl rfl)).2
  rw [addRegular, integer_sig, hm.toInt_eq, hv, ← hma.toInt_eq, ← hmb.toInt_eq, ha.toInt_eq,
    hb.toInt_eq]
  ring

/-! ## Comparison -/

/-- `return na ? 0 : 1` and `return na ? 1 : 0`: for two numbers of the sign `na`,
whether the first is the smaller, given how their magnitudes compare. -/
def signedLt (na : Bool) : Ordering → Bool
  | .lt => !na
  | .gt => na
  | .eq => false

/-- `idio_bignum_lt_p`: signs, then lengths, then segments from the top. -/
def ltP (a b : Bignum) : Bool :=
  let na := negativeP a
  let nb := negativeP b
  if na && !nb then true
  else if !na && nb then false
  else if a.sig.length < b.sig.length then signedLt na .lt
  else if a.sig.length > b.sig.length then signedLt na .gt
  else signedLt na (msdCompare (abs a).sig.reverse (abs b).sig.reverse)

/-- `idio_bignum_equal_p`: the same segments. -/
def equalP (a b : Bignum) : Bool := a.sig == b.sig

theorem abs_length {bn : Bignum} (h : bn.sig ≠ []) :
    (abs bn).sig.length = bn.sig.length := by
  have := List.length_pos_of_ne_nil h
  simp only [abs, bsaSetTop, List.length_append, List.length_dropLast, List.length_singleton]
  omega

theorem Magnitude.toInt_lt_of_length_lt {s t : Bsa} (hs : Magnitude s) (ht : Magnitude t)
    (hlen : s.length < t.length) : toInt s < toInt t := by
  have hpos := List.length_pos_of_ne_nil hs.nonempty
  have htt : Trimmed t := by
    rcases ht.shape with rfl | ⟨-, h⟩
    · simp only [List.length_singleton] at hlen
      omega
    · exact h
  rw [hs.toInt_eq, ht.toInt_eq]
  exact value_lt_of_length_lt segLimit_pos hs.digits ht.digits htt hlen

/-- Between numbers of one sign, the order is that of the magnitudes, reversed
when the sign is negative. -/
theorem signedLt_compare {α : Type} [AddCommGroup α] [LinearOrder α] [IsOrderedAddMonoid α]
    (neg : Bool) (x y : α) :
    signedLt neg (compare x y) =
      decide ((if neg then - x else x) < (if neg then - y else y)) := by
  rcases lt_trichotomy x y with h | h | h
  · rw [compare_lt_iff_lt.mpr h]
    cases neg <;> simp [signedLt, h, h.le]
  · rw [compare_eq_iff_eq.mpr h, h]
    cases neg <;> simp [signedLt]
  · rw [compare_gt_iff_gt.mpr h]
    cases neg <;> simp [signedLt, h, h.le]

theorem signedLt_compare_abs (hsign : x < 0 ↔ y < 0) :
    signedLt (decide (x < 0)) (compare |x| |y|) = decide (x < y) := by
  rw [signedLt_compare]
  by_cases hx : x < 0
  · simp [hx, hsign.mp hx, abs_of_neg]
  · have hy : ¬ y < 0 := mt hsign.mpr hx
    simp [hx, abs_of_nonneg (not_lt.mp hx), abs_of_nonneg (not_lt.mp hy)]

theorem compare_abs_segments (ha : IsInt a x) (hb : IsInt b y) (hlen : a.sig.length = b.sig.length) :
    msdCompare (abs a).sig.reverse (abs b).sig.reverse = compare |x| |y| := by
  have hma := ha.abs.magnitude (abs_nonneg x)
  have hmb := hb.abs.magnitude (abs_nonneg y)
  rw [msdCompare_eq (digits_reverse hma.digits) (digits_reverse hmb.digits),
    List.reverse_reverse, List.reverse_reverse, ← hma.toInt_eq, ← hmb.toInt_eq,
    ha.abs.toInt_eq, hb.abs.toInt_eq]
  rw [List.length_reverse, List.length_reverse, abs_length ha.normal.nonempty,
    abs_length hb.normal.nonempty, hlen]

theorem abs_lt_of_length_lt (ha : IsInt a x) (hb : IsInt b y) (hlen : a.sig.length < b.sig.length) :
    |x| < |y| := by
  have hma := ha.abs.magnitude (abs_nonneg x)
  have hmb := hb.abs.magnitude (abs_nonneg y)
  rw [← ha.abs.toInt_eq, ← hb.abs.toInt_eq]
  refine hma.toInt_lt_of_length_lt hmb ?_
  rwa [abs_length ha.normal.nonempty, abs_length hb.normal.nonempty]

/-- The part of `idio_bignum_lt_p` after the tests of the signs. -/
theorem ltP_same_sign (ha : IsInt a x) (hb : IsInt b y) (hsign : x < 0 ↔ y < 0) :
    (if a.sig.length < b.sig.length then signedLt (decide (x < 0)) .lt
      else if a.sig.length > b.sig.length then signedLt (decide (x < 0)) .gt
      else signedLt (decide (x < 0))
        (msdCompare (abs a).sig.reverse (abs b).sig.reverse)) = decide (x < y) := by
  rw [← signedLt_compare_abs hsign]
  split
  · rename_i hlen
    rw [compare_lt_iff_lt.mpr (abs_lt_of_length_lt ha hb hlen)]
  · split
    · rename_i hlen
      rw [compare_gt_iff_gt.mpr (abs_lt_of_length_lt hb ha hlen)]
    · rw [compare_abs_segments ha hb (by omega)]

/-- `idio_bignum_lt_p` is the order of the integers. -/
theorem ltP_isInt (ha : IsInt a x) (hb : IsInt b y) :
    ltP a b = decide (x < y) := by
  rw [ltP]
  simp only [ha.negativeP_eq, hb.negativeP_eq]
  by_cases hx : x < 0
  · by_cases hy : y < 0
    · simpa [hx, hy] using ltP_same_sign ha hb ⟨fun _ => hy, fun _ => hx⟩
    · simp [hx, hy, show x < y by omega]
  · by_cases hy : y < 0
    · simp [hx, hy, show ¬ x < y by omega]
    · simpa [hx, hy] using ltP_same_sign ha hb ⟨fun h => absurd h hx, fun h => absurd h hy⟩

/-- `idio_bignum_equal_p` is equality of the integers. -/
theorem equalP_isInt (ha : IsInt a x) (hb : IsInt b y) :
    equalP a b = decide (x = y) := by
  rw [equalP, Bool.eq_iff_iff, beq_iff_eq, decide_eq_true_iff]
  constructor
  · intro h
    rw [← ha.toInt_eq, ← hb.toInt_eq, h]
  · intro h
    exact toInt_inj ha.normal hb.normal (by rw [ha.toInt_eq, hb.toInt_eq, h])

/-! ## The borrow loop -/

/-- One turn of the borrow loop: the segment to store and the borrow. -/
def subtractStep (ia ib borrow : Int) : Int × Int :=
  let ir := ia - ib - borrow
  if ir < 0 then (ir + segLimit, 1) else (ir, 0)

/-- The borrow loop once `a` is exhausted.  A borrow out of the last segment of
both is borrowed again on every further turn. -/
def subtractTail : Bsa → Int → Result Bsa
  | [], borrow => if borrow = 0 then .ok [] else .error .diverges
  | ib :: bs, borrow =>
      (subtractTail bs (subtractStep 0 ib borrow).2).map
        ((subtractStep 0 ib borrow).1 :: ·)

/-- `while (ai < al || bi < bl || borrow)`. -/
def subtractLoop : Bsa → Bsa → Int → Result Bsa
  | [], bs, borrow => subtractTail bs borrow
  | ia :: as, bs, borrow =>
      (subtractLoop as bs.tail (subtractStep ia (bs.headD 0) borrow).2).map
        ((subtractStep ia (bs.headD 0) borrow).1 :: ·)

variable {borrow : Int}

theorem subtractStep_spec {ia ib : Int} (ha : 0 ≤ ia ∧ ia < segLimit) (hb : 0 ≤ ib ∧ ib < segLimit)
    (hc : IsBit borrow) :
    (0 ≤ (subtractStep ia ib borrow).1 ∧ (subtractStep ia ib borrow).1 < segLimit) ∧
      IsBit (subtractStep ia ib borrow).2 ∧
      (subtractStep ia ib borrow).1 + ib + borrow =
        ia + 1000000000000000000 * (subtractStep ia ib borrow).2 := by
  have hL : segLimit = 1000000000000000000 := rfl
  simp only [subtractStep, IsBit] at *
  split <;> omega

theorem subtractTail_spec (hb : Digits segLimit bs) (hc : IsBit borrow)
    (hle : value segLimit bs + borrow ≤ 0) :
    ∃ rs, subtractTail bs borrow = .ok rs ∧ rs.length = bs.length ∧ Digits segLimit rs ∧
      value segLimit rs = - value segLimit bs - borrow := by
  induction bs generalizing borrow with
  | nil =>
    have : borrow = 0 := by
      rcases hc with h | h
      · exact h
      · simp only [value_nil] at hle
        omega
    subst this
    exact ⟨[], by simp [subtractTail], rfl, digits_nil _, by simp⟩
  | cons b bs ih =>
    obtain ⟨hb0, hbs⟩ := digits_cons.mp hb
    obtain ⟨hd, hc', heq⟩ := subtractStep_spec ⟨le_refl 0, segLimit_pos⟩ hb0 hc
    have hnn := value_nonneg segLimit_pos.le hbs
    rw [value_segLimit_cons] at hle
    have hc0 : 0 ≤ borrow := by rcases hc with h | h <;> omega
    have hL : segLimit = 1000000000000000000 := rfl
    obtain ⟨rs, hrs, hlen, hds, hv⟩ := ih hbs hc' (by omega)
    refine ⟨_, by rw [subtractTail, hrs]; rfl, by simp [hlen], digits_cons.mpr ⟨hd, hds⟩, ?_⟩
    rw [value_segLimit_cons, hv, value_segLimit_cons]
    omega

/-- The borrow loop ends and subtracts when the subtrahend is not the larger. -/
theorem subtractLoop_spec (ha : Digits segLimit as) (hb : Digits segLimit bs) (hc : IsBit borrow)
    (hle : value segLimit bs + borrow ≤ value segLimit as) :
    ∃ rs, subtractLoop as bs borrow = .ok rs ∧ rs.length = max as.length bs.length ∧
      Digits segLimit rs ∧
      value segLimit rs = value segLimit as - value segLimit bs - borrow := by
  induction as generalizing bs borrow with
  | nil =>
    obtain ⟨rs, hrs, hlen, hds, hv⟩ := subtractTail_spec hb hc (by simpa using hle)
    exact ⟨rs, hrs, by simp [hlen], hds, by simpa using hv⟩
  | cons a as ih =>
    obtain ⟨ha0, has⟩ := digits_cons.mp ha
    obtain ⟨hd, hc', heq⟩ := subtractStep_spec ha0 (headD_digit hb) hc
    have hL : segLimit = 1000000000000000000 := rfl
    rw [value_segLimit_cons, value_head_tail bs] at hle
    obtain ⟨rs, hrs, hlen, hds, hv⟩ := ih has (digits_tail hb) hc' (by omega)
    refine ⟨_, by rw [subtractLoop, hrs]; rfl, ?_, digits_cons.mpr ⟨hd, hds⟩, ?_⟩
    · cases bs with
      | nil => simpa using hlen
      | cons b bs => simpa [Nat.succ_max_succ] using hlen
    · rw [value_segLimit_cons, hv, value_segLimit_cons, value_head_tail bs]
      omega

/-- `a - b` once neither operand is negative and `a` is not the smaller. -/
def subtractRegular (a b : Bignum) : Result Bignum :=
  (subtractLoop a.sig b.sig 0).map fun ra => integer (dropLeadingZeros ra)

/-- `a - b` once neither operand is negative: `a < b => -(b - a)`. -/
def subtractPositive (a b : Bignum) : Result Bignum :=
  if ltP a b then (subtractRegular b a).map negate else subtractRegular a b

theorem subtractRegular_isInt (ha : IsInt a x) (hb : IsInt b y) (hy : 0 ≤ y) (hle : y ≤ x) :
    ∃ r, subtractRegular a b = .ok r ∧ IsInt r (x - y) := by
  have hma := ha.magnitude (le_trans hy hle)
  have hmb := hb.magnitude hy
  have hva := ha.toInt_eq
  have hvb := hb.toInt_eq
  rw [hma.toInt_eq] at hva
  rw [hmb.toInt_eq] at hvb
  obtain ⟨rs, hrs, hlen, hds, hv⟩ :=
    subtractLoop_spec hma.digits hmb.digits (Or.inl rfl) (by omega)
  have hne : rs ≠ [] := by
    have := List.length_pos_of_ne_nil hma.nonempty
    apply List.ne_nil_of_length_pos
    omega
  obtain ⟨hm, hdrop⟩ := dropLeadingZeros_spec hds hne
  refine ⟨_, by rw [subtractRegular, hrs]; rfl, rfl, hm.normal, ?_⟩
  rw [integer_sig, hm.toInt_eq, hdrop, hv]
  omega

theorem subtractPositive_isInt (ha : IsInt a x) (hb : IsInt b y) (hx : 0 ≤ x) (hy : 0 ≤ y) :
    ∃ r, subtractPositive a b = .ok r ∧ IsInt r (x - y) := by
  rw [subtractPositive, ltP_isInt ha hb]
  by_cases hlt : x < y
  · obtain ⟨r, hr, hi⟩ := subtractRegular_isInt hb ha hx hlt.le
    refine ⟨negate r, by simp [hlt, hr, Except.map], ?_⟩
    have := hi.negate
    rwa [neg_sub] at this
  · obtain ⟨r, hr, hi⟩ := subtractRegular_isInt ha hb hy (by omega)
    exact ⟨r, by simp [hlt, hr], hi⟩

/-! ## Addition and subtraction with signs -/

/-- `idio_bignum_add`. -/
def add (a b : Bignum) : Result Bignum :=
  if negativeP a then
    if negativeP b then
      -- -a + -b => -(|a| + |b|)
      .ok (negate (addRegular (abs a) (abs b)))
    else
      -- -a + b => b - |a|
      subtractPositive b (abs a)
  else if negativeP b then
    -- a + -b => a - |b|
    subtractPositive a (abs b)
  else .ok (addRegular a b)

/-- `idio_bignum_subtract`. -/
def subtract (a b : Bignum) : Result Bignum :=
  if negativeP a then
    if negativeP b then
      -- -a - -b => |b| - |a|
      subtractPositive (abs b) (abs a)
    else
      -- -a - b => -(|a| + b)
      .ok (negate (addRegular (abs a) b))
  else if negativeP b then
    -- a - -b => a + |b|
    .ok (addRegular a (abs b))
  else subtractPositive a b

/-- `idio_bignum_add` as the source writes it, calling itself and
`idio_bignum_subtract`. -/
theorem add_eq_source (a b : Bignum) :
    add a b =
      if negativeP a then
        if negativeP b then (add (abs a) (abs b)).map negate
        else subtract b (abs a)
      else if negativeP b then subtract a (abs b)
      else .ok (addRegular a b) := by
  rw [add]
  split
  · split
    · simp [add, Except.map]
    · rename_i hb
      simp [subtract, hb]
  · rename_i ha
    split
    · simp [subtract, ha]
    · rfl

/-- `idio_bignum_add` adds the integers and returns a normal integer. -/
theorem add_isInt (ha : IsInt a x) (hb : IsInt b y) :
    ∃ r, add a b = .ok r ∧ IsInt r (x + y) := by
  rw [add, ha.negativeP_eq, hb.negativeP_eq]
  by_cases hx : x < 0
  · by_cases hy : y < 0
    · have := (addRegular_isInt ha.abs hb.abs (abs_nonneg x) (abs_nonneg y)).negate
      refine ⟨negate (addRegular (abs a) (abs b)), by simp [hx, hy], ?_⟩
      rwa [abs_of_neg hx, abs_of_neg hy, ← neg_add, neg_neg] at this
    · obtain ⟨r, hr, hi⟩ := subtractPositive_isInt hb ha.abs (by omega) (abs_nonneg x)
      refine ⟨r, by simp [hx, hy, hr], ?_⟩
      rwa [abs_of_neg hx, sub_neg_eq_add, add_comm] at hi
  · by_cases hy : y < 0
    · obtain ⟨r, hr, hi⟩ := subtractPositive_isInt ha hb.abs (by omega) (abs_nonneg y)
      refine ⟨r, by simp [hx, hy, hr], ?_⟩
      rwa [abs_of_neg hy, sub_neg_eq_add] at hi
    · refine ⟨addRegular a b, by simp [hx, hy], ?_⟩
      exact addRegular_isInt ha hb (by omega) (by omega)

/-- `idio_bignum_subtract` subtracts the integers and returns a normal integer. -/
theorem subtract_isInt (ha : IsInt a x) (hb : IsInt b y) :
    ∃ r, subtract a b = .ok r ∧ IsInt r (x - y) := by
  rw [subtract, ha.negativeP_eq, hb.negativeP_eq]
  by_cases hx : x < 0
  · by_cases hy : y < 0
    · obtain ⟨r, hr, hi⟩ :=
        subtractPositive_isInt hb.abs ha.abs (abs_nonneg y) (abs_nonneg x)
      refine ⟨r, by simp [hx, hy, hr], ?_⟩
      rwa [abs_of_neg hx, abs_of_neg hy, show - y - - x = x - y by ring] at hi
    · have := (addRegular_isInt ha.abs hb (abs_nonneg x) (by omega)).negate
      refine ⟨negate (addRegular (abs a) b), by simp [hx, hy], ?_⟩
      rwa [abs_of_neg hx, show - (- x + y) = x - y by ring] at this
  · by_cases hy : y < 0
    · have := addRegular_isInt ha hb.abs (by omega) (abs_nonneg y)
      refine ⟨addRegular a (abs b), by simp [hx, hy], ?_⟩
      rwa [abs_of_neg hy, ← sub_eq_add_neg] at this
    · simpa [hx, hy] using subtractPositive_isInt ha hb (by omega) (by omega)

/-- `idio_bignum_subtract` as the source writes it, calling itself and
`idio_bignum_add`. -/
theorem subtract_eq_source (ha : IsInt a x) (hb : IsInt b y) :
    subtract a b =
      if negativeP a then
        if negativeP b then subtract (abs b) (abs a)
        else (add (abs a) b).map negate
      else if negativeP b then add a (abs b)
      else if ltP a b then (subtract b a).map negate
      else subtractRegular a b := by
  rw [subtract]
  split
  · split
    · simp [subtract]
    · rename_i hnb
      simp [add, hnb, Except.map]
  · rename_i hna
    split
    · simp [add, hna]
    · rename_i hnb
      rw [subtractPositive]
      split
      · rename_i hlt
        -- The recursive call finds its operands in order.
        have hxy : x < y := by simpa [ltP_isInt ha hb] using hlt
        have hback : ltP b a = false := by simp [ltP_isInt hb ha, hxy.le]
        simp [subtract, hna, hnb, subtractPositive, hback]
      · rfl

end Bignum

end Idio
