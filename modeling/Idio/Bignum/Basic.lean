/-
  Bignum/Basic.lean --- bignum objects, their significands and normal form.

  A bignum is a flag word, an `int32_t` exponent and a significand array whose
  index zero is the least significant segment.  A segment holds 18 decimal
  digits.  An integer keeps its sign in the most significant segment, a real in a
  flag; both read the same array.

  `Normal` is the integer normal form: every segment but the last in
  `0 .. 10^18 - 1`, the last one signed and below `10^18` in absolute value, and
  no leading zero segment unless it is the only one.  `toInt` is the integer a
  significand stands for, and on normal significands it is injective
  (`toInt_inj`), which is what makes comparison segment by segment sound.
-/
import Idio.Basic
import Idio.Lib.Positional

set_option autoImplicit false

namespace Idio

/-- `IDIO_BSA`: the significand array, least significant segment first. -/
abbrev Bsa : Type := List Int

/-- `IDIO_BIGNUM_FLAG_*`. -/
structure BignumFlags where
  integer : Bool
  real : Bool
  realNegative : Bool
  realInexact : Bool
  deriving DecidableEq, Repr

/-- `IDIO_BIGNUM_FLAG_NONE`. -/
def BignumFlags.none : BignumFlags := ⟨false, false, false, false⟩

/-- `idio_bignum_t` with its flag word. -/
structure Bignum where
  flags : BignumFlags
  /-- `IDIO_BE_T`, an `int32_t` -/
  exp : Int
  sig : Bsa
  deriving DecidableEq, Repr

namespace Bignum

open Positional

/-- `IDIO_BIGNUM_INT_SEG_LIMIT` on a 64-bit machine. -/
def segLimit : Int := 1000000000000000000

/-- `IDIO_BIGNUM_DPW`, the decimal digits per word. -/
def dpw : Nat := 18

/-- `IDIO_BIGNUM_SIG_MAX_DIGITS`. -/
def sigMaxDigits : Nat := 18

/-- `IDIO_BE_MAX`. -/
def beMax : Int := 2147483647

/-- `IDIO_BE_MIN`. -/
def beMin : Int := -2147483648

theorem segLimit_pos : 0 < segLimit := by decide

theorem segLimit_eq : segLimit = 10 ^ dpw := by decide

/-! ## Significand arrays -/

/-- `idio_bsa_get (sig_a, al - 1)`: the most significant segment. -/
def bsaTop (s : Bsa) : Int := s.getLastD 0

/-- `idio_bsa_set (sig_a, v, al - 1)`. -/
def bsaSetTop (s : Bsa) (v : Int) : Bsa := s.dropLast ++ [v]

@[simp] theorem bsaTop_append (lo : Bsa) (t : Int) : bsaTop (lo ++ [t]) = t := by
  simp [bsaTop]

@[simp] theorem bsaSetTop_append (lo : Bsa) (t v : Int) :
    bsaSetTop (lo ++ [t]) v = lo ++ [v] := by
  simp [bsaSetTop]

/-- The popping of leading zero segments: `while (0 == ir && rl > 1)`. -/
def dropLeadingZeros : Bsa → Bsa
  | [] => []
  | d :: ds =>
      match dropLeadingZeros ds with
      | [] => [d]
      | [0] => [d]
      | r => d :: r

/-! ## Constructors -/

/-- `idio_bignum_integer`. -/
def integer (sig : Bsa) : Bignum := ⟨⟨true, false, false, false⟩, 0, sig⟩

/-- `idio_bignum_real`: the integer flag goes, the real flag comes. -/
def real (flags : BignumFlags) (exp : Int) (sig : Bsa) : Bignum :=
  ⟨{ flags with integer := false, real := true }, exp, sig⟩

/-- `idio_bignum_copy_to_integer`. -/
def copyToInteger (bn : Bignum) : Bignum := integer bn.sig

@[simp] theorem integer_sig (s : Bsa) : (integer s).sig = s := rfl

@[simp] theorem real_sig (f : BignumFlags) (e : Int) (s : Bsa) : (real f e s).sig = s := rfl

@[simp] theorem real_exp (f : BignumFlags) (e : Int) (s : Bsa) : (real f e s).exp = e := rfl

/-! ## Values of significands -/

/-- The integer a significand stands for: the sign is that of the top segment,
the lower segments add to the magnitude. -/
def toInt (s : Bsa) : Int :=
  if bsaTop s < 0 then - value segLimit (bsaSetTop s (- bsaTop s)) else value segLimit s

/-- The normal form of integer significands. -/
structure Normal (s : Bsa) : Prop where
  nonempty : s ≠ []
  low : ∀ d ∈ s.dropLast, 0 ≤ d ∧ d < segLimit
  top : - segLimit < bsaTop s ∧ bsaTop s < segLimit
  lead : 1 < s.length → bsaTop s ≠ 0

/-- A magnitude: a normal significand whose top segment is not negative. -/
structure Magnitude (s : Bsa) : Prop where
  digits : Digits segLimit s
  shape : s = [0] ∨ (s ≠ [] ∧ Trimmed s)

theorem normal_append {lo : Bsa} {t : Int} :
    Normal (lo ++ [t]) ↔
      Digits segLimit lo ∧ (- segLimit < t ∧ t < segLimit) ∧ (lo ≠ [] → t ≠ 0) := by
  constructor
  · rintro ⟨-, hlow, htop, hlead⟩
    refine ⟨by simpa [Digits] using hlow, by simpa using htop, fun hne => ?_⟩
    have : 1 < (lo ++ [t]).length := by
      have := List.length_pos_of_ne_nil hne
      simp only [List.length_append, List.length_singleton]
      omega
    simpa using hlead this
  · rintro ⟨hlow, htop, hlead⟩
    refine ⟨by simp, by simpa [Digits] using hlow, by simpa using htop, fun hlen => ?_⟩
    rw [bsaTop_append]
    apply hlead
    rintro rfl
    simp at hlen

variable {s : Bsa}

/-- A normal significand splits into its lower segments and its signed top. -/
theorem Normal.split (h : Normal s) :
    ∃ lo t, s = lo ++ [t] ∧ Digits segLimit lo ∧ (- segLimit < t ∧ t < segLimit) ∧
      (lo ≠ [] → t ≠ 0) := by
  have hs : s = s.dropLast ++ [s.getLast h.nonempty] :=
    (List.dropLast_append_getLast h.nonempty).symm
  refine ⟨s.dropLast, s.getLast h.nonempty, hs, ?_⟩
  rw [hs] at h
  exact normal_append.mp h

theorem toInt_append (lo : Bsa) (t : Int) :
    toInt (lo ++ [t]) =
      if t < 0 then - (value segLimit lo + segLimit ^ lo.length * (- t))
      else value segLimit lo + segLimit ^ lo.length * t := by
  simp [toInt, value_append]

/-! ## Magnitudes -/

theorem magnitude_append {lo : Bsa} {t : Int} :
    Magnitude (lo ++ [t]) ↔
      Digits segLimit lo ∧ (0 ≤ t ∧ t < segLimit) ∧ (lo ≠ [] → t ≠ 0) := by
  constructor
  · rintro ⟨hd, hshape⟩
    obtain ⟨hlo, ht⟩ := digits_append.mp hd
    refine ⟨hlo, (digits_cons.mp ht).1, fun hne => ?_⟩
    rcases hshape with h | ⟨-, h⟩
    · cases lo with
      | nil => exact absurd rfl hne
      | cons x xs => simp at h
    · exact trimmed_append_singleton.mp h
  · rintro ⟨hlo, ht, hlead⟩
    refine ⟨digits_append.mpr ⟨hlo, digits_cons.mpr ⟨ht, digits_nil _⟩⟩, ?_⟩
    cases lo with
    | nil =>
      by_cases h0 : t = 0
      · exact Or.inl (by simp [h0])
      · exact Or.inr ⟨by simp, trimmed_singleton.mpr h0⟩
    | cons x xs => exact Or.inr ⟨by simp, trimmed_append_singleton.mpr (hlead (by simp))⟩

theorem Magnitude.nonempty (h : Magnitude s) : s ≠ [] := by
  rcases h.shape with rfl | ⟨hne, -⟩
  · simp
  · exact hne

theorem Magnitude.split (h : Magnitude s) :
    ∃ lo t, s = lo ++ [t] ∧ Digits segLimit lo ∧ (0 ≤ t ∧ t < segLimit) ∧
      (lo ≠ [] → t ≠ 0) := by
  have hs : s = s.dropLast ++ [s.getLast h.nonempty] :=
    (List.dropLast_append_getLast h.nonempty).symm
  refine ⟨s.dropLast, s.getLast h.nonempty, hs, ?_⟩
  rw [hs] at h
  exact magnitude_append.mp h

/-- A magnitude is a normal significand. -/
theorem Magnitude.normal (h : Magnitude s) : Normal s := by
  obtain ⟨lo, t, rfl, hlo, ht, hlead⟩ := h.split
  have := segLimit_pos
  exact normal_append.mpr ⟨hlo, by omega, hlead⟩

theorem Magnitude.top_nonneg (h : Magnitude s) : 0 ≤ bsaTop s := by
  obtain ⟨lo, t, rfl, -, ht, -⟩ := h.split
  simpa using ht.1

theorem Normal.magnitude (h : Normal s) (htop : 0 ≤ bsaTop s) : Magnitude s := by
  obtain ⟨lo, t, rfl, hlo, ht, hlead⟩ := h.split
  rw [bsaTop_append] at htop
  exact magnitude_append.mpr ⟨hlo, ⟨htop, ht.2⟩, hlead⟩

/-- The value of a magnitude is the value of its segments. -/
theorem toInt_of_top_nonneg (h : 0 ≤ bsaTop s) : toInt s = value segLimit s := by
  rw [toInt, if_neg (by omega)]

theorem Magnitude.toInt_eq (h : Magnitude s) : toInt s = value segLimit s :=
  toInt_of_top_nonneg h.top_nonneg

theorem Magnitude.toInt_nonneg (h : Magnitude s) : 0 ≤ toInt s := by
  rw [h.toInt_eq]
  exact value_nonneg segLimit_pos.le h.digits

/-- The only magnitude of value zero is the single zero segment. -/
theorem Magnitude.eq_zero (h : Magnitude s) (h0 : toInt s = 0) : s = [0] := by
  rcases h.shape with hs | ⟨hne, ht⟩
  · exact hs
  · have hle := pow_le_value segLimit_pos h.digits ht hne
    have hpos := pow_pos segLimit_pos (s.length - 1)
    rw [h.toInt_eq] at h0
    omega

theorem Magnitude.toInt_inj {t : Bsa} (hs : Magnitude s) (ht : Magnitude t) (h : toInt s = toInt t) :
    s = t := by
  by_cases h0 : toInt s = 0
  · rw [hs.eq_zero h0, ht.eq_zero (h ▸ h0)]
  · have trimmed {u : Bsa} (hu : Magnitude u) (hne : toInt u ≠ 0) : Trimmed u := by
      rcases hu.shape with rfl | ⟨-, htr⟩
      · exact absurd (by decide) hne
      · exact htr
    have hB : (1 : Int) ≤ segLimit := segLimit_pos
    refine trimmed_inj hB hs.digits ht.digits (trimmed hs h0) (trimmed ht (h ▸ h0)) ?_
    rw [← hs.toInt_eq, ← ht.toInt_eq, h]

/-! ## Sign and absolute value -/

/-- `idio_bignum_abs`. -/
def abs (bn : Bignum) : Bignum := { bn with sig := bsaSetTop bn.sig |bsaTop bn.sig| }

/-- `idio_bignum_negative_p`. -/
def negativeP (bn : Bignum) : Bool := bsaTop bn.sig < 0

/-- `idio_bignum_negate`. -/
def negate (bn : Bignum) : Bignum := { bn with sig := bsaSetTop bn.sig (- bsaTop bn.sig) }

/-- `idio_bignum_zero_p`. -/
def zeroP (a : Bignum) : Bool := a.sig.length == 1 && a.sig.headD 0 == 0

variable {bn : Bignum}

theorem negativeP_eq_false_iff : negativeP bn = false ↔ 0 ≤ bsaTop bn.sig := by
  simp [negativeP]

@[simp] theorem negativeP_abs (bn : Bignum) : negativeP (abs bn) = false := by
  rw [negativeP_eq_false_iff]
  simp [abs, bsaSetTop, bsaTop]

theorem Normal.abs_magnitude (h : Normal bn.sig) :
    Magnitude (abs bn).sig ∧ toInt (abs bn).sig = |toInt bn.sig| := by
  obtain ⟨lo, t, hs, hlo, ht, hlead⟩ := h.split
  have hB := segLimit_pos
  have habs : (abs bn).sig = lo ++ [|t|] := by simp [abs, hs]
  have ht0 : 0 ≤ |t| := abs_nonneg t
  refine ⟨?_, ?_⟩
  · rw [habs, magnitude_append]
    exact ⟨hlo, ⟨ht0, abs_lt.mpr ht⟩, fun hne => by simpa using hlead hne⟩
  · have hv := value_nonneg hB.le hlo
    have hp := pow_pos hB lo.length
    rw [habs, hs, toInt_append, toInt_append, if_neg (by omega)]
    split
    · rename_i hneg
      have := mul_nonneg hp.le (by omega : 0 ≤ - t)
      rw [abs_of_neg hneg, abs_neg, abs_of_nonneg (by omega)]
    · rename_i hpos
      have := mul_nonneg hp.le (by omega : 0 ≤ t)
      rw [abs_of_nonneg (by omega : 0 ≤ t), abs_of_nonneg (by omega)]

theorem Normal.negate {bn : Bignum} (h : Normal bn.sig) :
    Normal (negate bn).sig ∧ toInt (Bignum.negate bn).sig = - toInt bn.sig := by
  obtain ⟨lo, t, hs, hlo, ht, hlead⟩ := h.split
  have hneg : (Bignum.negate bn).sig = lo ++ [- t] := by simp [Bignum.negate, hs]
  refine ⟨?_, ?_⟩
  · rw [hneg, normal_append]
    exact ⟨hlo, by omega, fun hne => by simpa using hlead hne⟩
  · rw [hneg, hs, toInt_append, toInt_append]
    rcases lt_trichotomy t 0 with h0 | rfl | h0
    · rw [if_neg (by omega), if_pos h0]
      ring
    · -- A zero top segment is the only segment.
      have hnil : lo = [] := by
        by_contra hne
        exact hlead hne rfl
      simp [hnil]
    · rw [if_pos (by omega), if_neg (by omega)]
      ring

theorem Normal.toInt_neg_iff (h : Normal s) : toInt s < 0 ↔ bsaTop s < 0 := by
  obtain ⟨lo, t, rfl, hlo, ht, hlead⟩ := h.split
  have hB := segLimit_pos
  have hv := value_nonneg hB.le hlo
  have hp := pow_pos hB lo.length
  rw [toInt_append, bsaTop_append]
  split
  · rename_i hneg
    have := mul_pos hp (by omega : 0 < - t)
    exact ⟨fun _ => hneg, fun _ => by omega⟩
  · rename_i hpos
    have := mul_nonneg hp.le (by omega : 0 ≤ t)
    exact ⟨fun hlt => by omega, fun hlt => absurd hlt hpos⟩

/-- **Normal forms are canonical**: two normal significands of one value are the
same array. -/
theorem toInt_inj {t : Bsa} (hs : Normal s) (ht : Normal t) (h : toInt s = toInt t) :
    s = t := by
  by_cases hneg : bsaTop s < 0
  · -- Both are negative; compare their negations, which are magnitudes.
    have htneg : bsaTop t < 0 := ht.toInt_neg_iff.mp (h ▸ hs.toInt_neg_iff.mpr hneg)
    have key {u : Bsa} (hu : Normal u) (hlt : bsaTop u < 0) :
        Magnitude (Bignum.negate (integer u)).sig ∧
          toInt (Bignum.negate (integer u)).sig = - toInt u := by
      obtain ⟨hn, hv⟩ := @Normal.negate (integer u) hu
      refine ⟨hn.magnitude ?_, hv⟩
      have : ¬ toInt (Bignum.negate (integer u)).sig < 0 := by
        have := hu.toInt_neg_iff.mpr hlt
        rw [hv, integer_sig]
        omega
      have := mt hn.toInt_neg_iff.mpr this
      omega
    obtain ⟨hms, hvs⟩ := key hs hneg
    obtain ⟨hmt, hvt⟩ := key ht htneg
    have heq := hms.toInt_inj hmt (by rw [hvs, hvt, h])
    obtain ⟨lo, x, rfl, -⟩ := hs.split
    obtain ⟨lo', y, rfl, -⟩ := ht.split
    simpa [Bignum.negate] using heq
  · have htneg : ¬ bsaTop t < 0 := by
      rw [← ht.toInt_neg_iff, ← h, hs.toInt_neg_iff]
      exact hneg
    exact (hs.magnitude (by omega)).toInt_inj (ht.magnitude (by omega)) h

theorem normal_zero : Normal [0] := normal_append.mpr ⟨digits_nil _, by decide, by simp⟩

theorem Normal.zeroP_iff (h : Normal bn.sig) :
    zeroP bn = true ↔ toInt bn.sig = 0 := by
  constructor
  · intro hz
    obtain ⟨hlen, h0⟩ : bn.sig.length = 1 ∧ bn.sig.headD 0 = 0 := by simpa [zeroP] using hz
    obtain ⟨d, hd⟩ := List.length_eq_one_iff.mp hlen
    rw [hd] at h0 ⊢
    have : d = 0 := by simpa using h0
    subst this
    decide
  · intro h0
    have : bn.sig = [0] := toInt_inj h normal_zero (by rw [h0]; decide)
    simp [zeroP, this]

/-! ## Leading zeros -/

theorem dropLeadingZeros_spec (hd : Digits segLimit s) (hne : s ≠ []) :
    Magnitude (dropLeadingZeros s) ∧
      value segLimit (dropLeadingZeros s) = value segLimit s := by
  induction s with
  | nil => exact absurd rfl hne
  | cons d ds ih =>
    obtain ⟨hd0, hds⟩ := digits_cons.mp hd
    have single (hv : value segLimit ds = 0) :
        Magnitude [d] ∧ value segLimit [d] = value segLimit (d :: ds) := by
      refine ⟨(@magnitude_append [] d).mpr ⟨digits_nil _, hd0, by simp⟩, ?_⟩
      rw [value_cons, value_cons, hv, value_nil]
    cases ds with
    | nil => simpa [dropLeadingZeros] using single rfl
    | cons e es =>
      obtain ⟨hm, hv⟩ := ih hds (by simp)
      rw [dropLeadingZeros]
      split
      · rename_i h
        exact absurd h hm.nonempty
      · rename_i h
        exact single (by rw [← hv, h]; decide)
      · rename_i hne0 hne1
        refine ⟨⟨digits_cons.mpr ⟨hd0, hm.digits⟩, Or.inr ⟨by simp, ?_⟩⟩, ?_⟩
        · rcases hm.shape with h0 | ⟨hnil, htr⟩
          · exact absurd h0 hne1
          · obtain ⟨x, xs, hx⟩ := List.exists_cons_of_ne_nil hnil
            rw [hx] at htr ⊢
            exact trimmed_cons_cons.mpr htr
        · rw [value_cons, value_cons, hv]

/-! ## Integer bignums and the integers they stand for -/

/-- `bn` is an integer bignum in normal form that stands for `n`. -/
structure IsInt (bn : Bignum) (n : Int) : Prop where
  isInteger : bn.flags.integer = true
  normal : Normal bn.sig
  toInt_eq : toInt bn.sig = n

theorem IsInt.of_magnitude (h : Magnitude s) : IsInt (integer s) (toInt s) :=
  ⟨rfl, h.normal, rfl⟩

variable {n : Int}

theorem IsInt.magnitude (h : IsInt bn n) (hn : 0 ≤ n) :
    Magnitude bn.sig := by
  refine h.normal.magnitude ?_
  have := mt h.normal.toInt_neg_iff.mpr (by rw [h.toInt_eq]; omega)
  omega

theorem IsInt.abs (h : IsInt bn n) : IsInt (abs bn) |n| := by
  obtain ⟨hm, hv⟩ := h.normal.abs_magnitude
  exact ⟨h.isInteger, hm.normal, by rw [hv, h.toInt_eq]⟩

theorem IsInt.negate {bn : Bignum} {n : Int} (h : IsInt bn n) : IsInt (negate bn) (- n) := by
  obtain ⟨hm, hv⟩ := h.normal.negate
  exact ⟨h.isInteger, hm, by rw [hv, h.toInt_eq]⟩

theorem IsInt.negativeP_eq (h : IsInt bn n) :
    negativeP bn = decide (n < 0) := by
  rw [negativeP, ← h.toInt_eq, decide_eq_decide]
  exact h.normal.toInt_neg_iff.symm

theorem IsInt.zeroP_eq (h : IsInt bn n) :
    zeroP bn = decide (n = 0) := by
  rw [Bool.eq_iff_iff, h.normal.zeroP_iff, h.toInt_eq, decide_eq_true_iff]

/-- An integer bignum in normal form, the form every integer operation expects
and returns. -/
structure NormalInteger where
  bn : Bignum
  isInteger : bn.flags.integer = true
  normal : Normal bn.sig

/-- The integer a normal integer bignum stands for. -/
def NormalInteger.toInt (a : NormalInteger) : Int := Bignum.toInt a.bn.sig

theorem NormalInteger.isInt (a : NormalInteger) : IsInt a.bn a.toInt :=
  ⟨a.isInteger, a.normal, rfl⟩

/-- Forget the integer that is represented. -/
def IsInt.toNormal {bn : Bignum} {n : Int} (h : IsInt bn n) : NormalInteger :=
  ⟨bn, h.isInteger, h.normal⟩

theorem IsInt.toNormal_toInt (h : IsInt bn n) :
    h.toNormal.toInt = n := h.toInt_eq

end Bignum

end Idio
