/-
  Text.lean --- the text of a bignum, and bignums from text.

  The first half is the printer: `integerAsString` writes a significand segment by
  segment, `realAsString` writes `d.ddd`, an `e` and the exponent of the first
  digit.  The second half is what the reader hands a number's text to:
  `integerC` takes it 18 characters at a time from the right, `realC` digit by
  digit from the left, counting the digits after the period in the exponent.

  Each reading function has one lemma that says what it does on the text of a
  string of digits (`integerSegs_print`, `realDigits_print`, `readExponent_print`);
  the round trip in `Read.lean` is put together from these.
-/
import Idio.Number
import Idio.Lib.DigitString

set_option autoImplicit false

namespace Idio

open Bignum Decimal DigitString Positional

/-- A C string, without its terminating NUL. -/
abbrev Text : Type := List Char

namespace Bignum

/-! ## Printing -/

/-- The text of a string of digits. -/
def digitText (ds : List Nat) : Text := ds.map digitChar

/-- `%zd`. -/
def printInt (v : Int) : Text :=
  (if v < 0 then ['-'] else []) ++ digitText (digitsOf v.natAbs)

/-- `%018zd`, `IDIO_BIGNUM_DPW_FMT`. -/
def printSegment (v : Int) : Text :=
  if v < 0 then '-' :: digitText (padded (dpw - 1) v.natAbs) else digitText (padded dpw v.natAbs)

/-- `%+d`. -/
def printSigned (v : Int) : Text := (if v < 0 then '-' else '+') :: digitText (digitsOf v.natAbs)

/-- The segments below the most significant one. -/
def lowerText (sig : Bsa) : Text := sig.dropLast.reverse.flatMap printSegment

/-- `idio_bignum_integer_as_string`, no `idio-print-conversion-precision` being set. -/
def integerAsString (bn : Bignum) : Text := printInt (bsaTop bn.sig) ++ lowerText bn.sig

/-- `idio_bignum_real_as_string` in the default format. -/
def realAsString (bn : Bignum) : Text :=
  let digits := countDigits bn.sig
  let vs := printInt (bsaTop bn.sig)
  let e := wrap32 (bn.exp + digits - 1)
  (if bn.flags.realInexact then ['#', 'i'] else []) ++
    (if realNegativeP bn then ['-'] else []) ++
    vs.take 1 ++ ['.'] ++
    (if vs.tail ≠ [] then vs.tail else if bn.sig.length = 1 then ['0'] else []) ++
    lowerText bn.sig ++ ['e'] ++ printSigned e

/-- `idio_bignum_as_string`. -/
def asString (bn : Bignum) : Text :=
  if bn.flags.integer then integerAsString bn else realAsString bn

/-! ## Reading integers -/

/-- `isspace` in the C locale. -/
def isSpace (c : Char) : Bool := c = ' ' || (9 ≤ c.toNat && c.toNat ≤ 13)

/-- An optional sign, and whether it is a minus. -/
def splitSign : Text → Bool × Text
  | '-' :: s => (true, s)
  | '+' :: s => (false, s)
  | s => (false, s)

/-- `strtoll` to base 10: the value, and the text from `end` on.  No text it is
given is long enough for `ERANGE`. -/
def strtoll (s : Text) : Int × Text :=
  let (neg, t) := splitSign (s.dropWhile isSpace)
  let ds := t.takeWhile Char.isDigit
  let v : Int := digitValue (ds.map charDigit)
  if ds.isEmpty then (0, s) else (if neg then - v else v, t.dropWhile Char.isDigit)

/-- `idio_bignum_C_without_inexact`. -/
def withoutInexact (nums : Text) : Text := nums.map fun c => if c = '#' then '5' else c

/-- The loop of `idio_bignum_integer_C`: the last `dpw` characters of `s` are the
next segment, and the sign goes to the last segment formed. -/
def integerSegs (nums : Text) (sign : Int) : Nat → Text → Result Bsa
  | 0, _ => .error .diverges
  | fuel + 1, s =>
      if s = [] then .ok []
      else
        let eos := if s.length < dpw then s.length else dpw
        let i := strtoll (s.drop (s.length - eos))
        let rest := s.take (s.length - eos)
        if i.2 ≠ [] then
          .error (.bignumError
            ("strtoll (" ++ String.ofList nums ++ ") = " ++ toString i.1))
        else do
          let segs ← integerSegs nums sign fuel rest
          pure ((if rest = [] then i.1 * sign else i.1) :: segs)

/-- `idio_bignum_integer_C`. -/
def integerC (nums : Text) (reqExact : Bool) : Result Bignum := do
  let (neg, s) := splitSign (withoutInexact nums)
  let exact := reqExact || !nums.contains '#'
  let segs ← integerSegs nums (if exact && neg then -1 else 1) (s.length + 1) s
  let ra := dropLeadingZeros segs
  if exact then pure (integer ra)
  else normalize (real ⟨false, true, neg, true⟩ 0 ra)

/-! ## Reading reals -/

/-- `IDIO_BIGNUM_EXP_CHAR`, the same as `IDIO_READ_BIGNUM_EXPONENT`. -/
def expChar (c : Char) : Bool := "dDeEfFlLsS".toList.contains c

/-- The variables of the loop of `idio_bignum_real_C`. -/
structure RealScan where
  sigBn : Bignum
  exp : Int
  foundPeriod : Bool
  exact : Bool

/-- A digit or a `#`, which reads as an inexact 5. -/
def pushDigit (c : Char) (st : RealScan) : Result RealScan := do
  let sig ← shiftLeft st.sigBn 0
  let digit : Int := if c = '#' then 5 else charDigit c
  let sig ← add sig (integerIntmaxT digit)
  pure ⟨sig, if st.foundPeriod then st.exp - 1 else st.exp, st.foundPeriod,
    st.exact && c != '#'⟩

/-- The loop of `idio_bignum_real_C` over digits, `#` and `.`, and the text it
stops at. -/
def realDigits : Text → RealScan → Result (RealScan × Text)
  | [], st => .ok (st, [])
  | c :: s, st =>
      if c = '.' then realDigits s { st with foundPeriod := true }
      else if c.isDigit || c = '#' then do
        let st' ← pushDigit c st
        realDigits s st'
      else .ok (st, c :: s)

/-- `IDIO_BIGNUM_int64_t_WORDS`. -/
def int64Words : Nat := 2

/-- `IDIO_BIGNUM_int64_t_FIRST`. -/
def int64First : Int := 9

/-- The loop of `idio_bignum_int64_t_value` over the lower segments; `none` when
the next one does not fit. -/
def int64Segs : List Int → Int → Option Int
  | [], v => some v
  | sig :: sigs, v =>
      if sig > intmaxMax - wrap64 (v * segLimit) then none
      else int64Segs sigs (wrap64 (v * segLimit) + sig)

/-- `idio_bignum_int64_t_value` on an integer. -/
def int64Value (bn : Bignum) : Result Int :=
  let a1 := bsaTop bn.sig
  let ai := bn.sig.length
  let tooLarge : Result Int := .error (.bignumConversionError
    (String.ofList (asString bn) ++ " is too large for int64_t (9223372036854775807)"))
  if ai > 1 then
    match toFixnum bn with
    | .fixnum v => .ok v
    | .bignum _ =>
        if ai < int64Words ∨ (ai = int64Words ∧ a1 ≤ int64First ∧ a1 ≥ - int64First) then
          match int64Segs bn.sig.dropLast.reverse |a1| with
          | none => .error (.bignumConversionError "significand overflow")
          | some v =>
              let v := if a1 < 0 then - v else v
              if (a1 < 0 ∧ v < 0) ∨ (a1 ≥ 0 ∧ v ≥ 0) then .ok v else tooLarge
        else tooLarge
  else .ok a1

/-- The exponent part of `idio_bignum_real_C`: an exponent is added to the one
counted so far, with the tests of `addExponents`. -/
def readExponent (exp : Int) : Text → Result Int
  | [] => .ok exp
  | c :: s =>
      if expChar c then do
        let n ← integerC s true
        let expV ← int64Value n
        addExponents exp expV
      else .ok exp

/-- `idio_bignum_real_C`. -/
def realC (nums : Text) : Result Bignum := do
  let (neg, s) := splitSign nums
  let (st, rest) ← realDigits s ⟨integerIntmaxT 0, 0, false, true⟩
  let exp ← readExponent st.exp rest
  normalize (real ⟨false, false, neg, !st.exact⟩ exp (dropLeadingZeros st.sigBn.sig))

/-- `idio_bignum_C`. -/
def bignumC (nums : Text) : Result Bignum :=
  if nums.any fun c => c = '.' || expChar c then realC nums else integerC nums false

/-! ## Texts of digits -/

@[simp] theorem digitText_nil : digitText [] = [] := rfl

@[simp] theorem digitText_cons (d : Nat) (ds : List Nat) :
    digitText (d :: ds) = digitChar d :: digitText ds := rfl

@[simp] theorem digitText_append (xs ys : List Nat) :
    digitText (xs ++ ys) = digitText xs ++ digitText ys := List.map_append

@[simp] theorem digitText_length (ds : List Nat) : (digitText ds).length = ds.length :=
  List.length_map digitChar

variable {ds : List Nat}

theorem isDigit_of_mem_digitText (h : AllDigits ds) {c : Char} (hc : c ∈ digitText ds) :
    c.isDigit = true := by
  obtain ⟨d, hd, rfl⟩ := List.mem_map.mp hc
  exact isDigit_digitChar (h d hd)

theorem not_mem_digitText (h : AllDigits ds) {c : Char} (hc : c.isDigit = false) :
    c ∉ digitText ds := by
  intro hmem
  rw [isDigit_of_mem_digitText h hmem] at hc
  cases hc

theorem digitText_ne_nil (h : ds ≠ []) : digitText ds ≠ [] := by
  simpa [digitText] using h

theorem map_charDigit_digitText (h : AllDigits ds) :
    (digitText ds).map charDigit = ds := by
  induction ds with
  | nil => rfl
  | cons d ds ih =>
    obtain ⟨hd, hds⟩ := allDigits_cons.mp h
    simp [charDigit_digitChar hd, ih hds]

theorem takeWhile_digitText (h : AllDigits ds) :
    (digitText ds).takeWhile Char.isDigit = digitText ds ∧
      (digitText ds).dropWhile Char.isDigit = [] := by
  induction ds with
  | nil => exact ⟨rfl, rfl⟩
  | cons d ds ih =>
    obtain ⟨hd, hds⟩ := allDigits_cons.mp h
    simp [isDigit_digitChar hd, ih hds]

/-- A digit is neither a sign, nor a blank, nor one of the other characters a
number may have. -/
theorem digitChar_plain {d : Nat} (h : d < 10) :
    isSpace (digitChar d) = false ∧ expChar (digitChar d) = false ∧ digitChar d ≠ '#' ∧
      digitChar d ≠ '.' ∧ digitChar d ≠ '+' ∧ digitChar d ≠ '-' := by
  revert d
  decide

/-- A sign as the printer writes it, or none. -/
inductive IsSign : Text → Bool → Prop
  | none : IsSign [] false
  | plus : IsSign ['+'] false
  | minus : IsSign ['-'] true

theorem isSign_printInt (neg : Bool) : IsSign (if neg then ['-'] else []) neg := by
  cases neg
  · exact IsSign.none
  · exact IsSign.minus

variable {neg : Bool} {sign : Text}

theorem IsSign.splitSign_eq (hs : IsSign sign neg) (h : AllDigits ds) (hne : ds ≠ []) (rest : Text) :
    splitSign (sign ++ (digitText ds ++ rest)) = (neg, digitText ds ++ rest) := by
  cases hs with
  | plus => rfl
  | minus => rfl
  | none =>
    obtain ⟨d, ds, rfl⟩ := List.exists_cons_of_ne_nil hne
    obtain ⟨-, -, -, -, hplus, hminus⟩ := digitChar_plain (allDigits_cons.mp h).1
    simp only [digitText_cons, List.cons_append, List.nil_append]
    unfold splitSign
    split
    · rename_i heq
      exact absurd (List.cons.inj heq).1 hminus
    · rename_i heq
      exact absurd (List.cons.inj heq).1 hplus
    · rfl

/-- `strtoll` on a sign and digits. -/
theorem strtoll_print (hs : IsSign sign neg) (h : AllDigits ds) (hne : ds ≠ []) :
    strtoll (sign ++ digitText ds) =
      ((if neg then - (digitValue ds : Int) else digitValue ds), []) := by
  have hspace : (sign ++ digitText ds).dropWhile isSpace = sign ++ digitText ds := by
    cases hs with
    | plus => rfl
    | minus => rfl
    | none =>
      obtain ⟨d, ds, rfl⟩ := List.exists_cons_of_ne_nil hne
      simp [(digitChar_plain (allDigits_cons.mp h).1).1]
  have hsign : splitSign (sign ++ digitText ds) = (neg, digitText ds) := by
    simpa using hs.splitSign_eq h hne []
  obtain ⟨htake, hdrop⟩ := takeWhile_digitText h
  simp only [strtoll, hspace, hsign, htake, hdrop, map_charDigit_digitText h]
  simp [digitText_ne_nil hne]

theorem strtoll_digitText (h : AllDigits ds) (hne : ds ≠ []) :
    strtoll (digitText ds) = ((digitValue ds : Int), []) :=
  strtoll_print IsSign.none h hne

/-! ## Reading back what was printed: integers -/

variable {t : Int}

theorem natAbs_lt_pow (ht : - segLimit < t ∧ t < segLimit) : t.natAbs < 10 ^ dpw := by
  have : segLimit = ((10 ^ dpw : Nat) : Int) := by decide
  omega

/-- The text of a lower segment is `dpw` digits. -/
theorem printSegment_eq {v : Int} (h : 0 ≤ v ∧ v < segLimit) :
    printSegment v = digitText (padded dpw v.natAbs) ∧ (printSegment v).length = dpw := by
  have hlt := natAbs_lt_pow (by have := segLimit_pos; omega : - segLimit < v ∧ v < segLimit)
  have heq : printSegment v = digitText (padded dpw v.natAbs) := by
    rw [printSegment, if_neg (by omega)]
  exact ⟨heq, by rw [heq, digitText_length, padded_length (by decide) hlt]⟩

/-- The digits of a magnitude whose segments are `lo`, least significant first,
and `t`. -/
def sigDigits (lo : Bsa) (t : Nat) : List Nat :=
  digitsOf t ++ lo.reverse.flatMap fun v => padded dpw v.natAbs

theorem allDigits_sigDigits (lo : Bsa) (t : Nat) : AllDigits (sigDigits lo t) := by
  refine allDigits_append.mpr ⟨allDigits_digitsOf t, fun d hd => ?_⟩
  obtain ⟨v, -, hv⟩ := List.mem_flatMap.mp hd
  exact allDigits_padded _ _ d hv

theorem sigDigits_ne_nil (lo : Bsa) (t : Nat) : sigDigits lo t ≠ [] := by
  simp [sigDigits, digitsOf_ne_nil]

theorem sigDigits_cons (x : Int) (lo : Bsa) (t : Nat) :
    sigDigits (x :: lo) t = sigDigits lo t ++ padded dpw x.natAbs := by
  simp [sigDigits]

variable {lo : Bsa}

theorem sigDigits_length (hlo : Digits segLimit lo) (t : Nat) :
    (sigDigits lo t).length = (digitsOf t).length + dpw * lo.length := by
  induction lo with
  | nil => simp [sigDigits]
  | cons x lo ih =>
    obtain ⟨hx, hlo⟩ := digits_cons.mp hlo
    obtain ⟨hseg, hlen⟩ := printSegment_eq hx
    rw [hseg, digitText_length] at hlen
    rw [sigDigits_cons, List.length_append, ih hlo, hlen, List.length_cons, Nat.mul_succ]
    omega

theorem integerAsString_eq {bn : Bignum} (hs : bn.sig = lo ++ [t]) (hlo : Digits segLimit lo) :
    integerAsString bn =
      (if t < 0 then ['-'] else []) ++ digitText (sigDigits lo t.natAbs) := by
  have hlower : lowerText bn.sig =
      digitText (lo.reverse.flatMap fun v => padded dpw v.natAbs) := by
    rw [lowerText, hs, List.dropLast_concat, digitText, List.map_flatMap]
    apply List.flatMap_congr
    intro v hv
    exact (printSegment_eq (hlo v (List.mem_reverse.mp hv))).1
  rw [integerAsString, hlower, hs, bsaTop_append, printInt, sigDigits, digitText_append,
    List.append_assoc]

/-- The value of the digits is the value of the segments. -/
theorem digitValue_sigDigits (hlo : Digits segLimit lo) (t : Nat) :
    (digitValue (sigDigits lo t) : Int) = value segLimit lo + segLimit ^ lo.length * t := by
  induction lo with
  | nil => simp [sigDigits, digitValue_digitsOf]
  | cons x lo ih =>
    obtain ⟨hx, hlo⟩ := digits_cons.mp hlo
    have hlen : (padded dpw x.natAbs).length = dpw := by
      apply padded_length (by decide)
      rw [segLimit] at hx
      simp only [dpw]
      omega
    rw [sigDigits_cons, digitValue_append, digitValue_padded, hlen, value_cons, List.length_cons]
    push_cast
    rw [ih hlo, abs_of_nonneg hx.1, pow_succ,
      show (10 : Int) ^ dpw = segLimit from by decide]
    ring

/-- A natural number is printed as its digits. -/
theorem asString_nat {a : NormalInteger} {n : Nat} (h : a.toInt = n) :
    asString a.bn = digitText (digitsOf n) := by
  obtain ⟨lo, t, hsig, hlo, ht, hlead⟩ := a.normal.split
  have hvalue := h
  rw [NormalInteger.toInt, hsig, toInt_append] at hvalue
  have hnonneg := value_nonneg segLimit_pos.le hlo
  have ht0 : ¬ t < 0 := by
    intro hneg
    rw [if_pos hneg] at hvalue
    have hpos : 0 < segLimit ^ lo.length * -t := Int.mul_pos (pow_pos segLimit_pos _) (by omega)
    omega
  rw [if_neg ht0] at hvalue
  have hdigits : digitValue (sigDigits lo t.natAbs) = n := by
    have := digitValue_sigDigits hlo t.natAbs
    rw [Int.natAbs_of_nonneg (by omega), hvalue] at this
    exact_mod_cast this
  rw [asString, if_pos a.isInteger, integerAsString_eq hsig hlo, if_neg ht0, List.nil_append]
  congr 1
  by_cases hlo' : lo = []
  · subst hlo'
    simp only [sigDigits, List.reverse_nil, List.flatMap_nil, List.append_nil,
      digitValue_digitsOf] at hdigits ⊢
    rw [hdigits]
  · have hall := allDigits_sigDigits lo t.natAbs
    obtain ⟨d, ds, hds, hd⟩ := digitsOf_head (n := t.natAbs) (by
      have := hlead hlo'
      omega)
    rw [sigDigits, hds, List.cons_append] at hall hdigits ⊢
    rw [← hdigits, digitsOf_digitValue hall hd]

/-- One round of the loop takes the last chunk off. -/
theorem integerSegs_chunk (nums : Text) (sign : Int) (fuel : Nat) {front chunk : Text} {v : Int}
    (hlen : chunk.length = dpw ∨ (front = [] ∧ chunk.length ≤ dpw)) (hne : chunk ≠ [])
    (hread : strtoll chunk = (v, [])) :
    integerSegs nums sign (fuel + 1) (front ++ chunk) =
      (integerSegs nums sign fuel front).map fun segs =>
        (if front = [] then v * sign else v) :: segs := by
  have heos : (front ++ chunk).length -
      (if (front ++ chunk).length < dpw then (front ++ chunk).length else dpw) =
        front.length := by
    rw [List.length_append]
    rcases hlen with h | ⟨rfl, h⟩
    · rw [if_neg (by omega)]
      omega
    · simp only [List.length_nil, Nat.zero_add]
      split <;> omega
  rw [integerSegs, if_neg (by simp [hne])]
  simp only [heos, List.drop_left, List.take_left, hread]
  cases integerSegs nums sign fuel front <;> rfl

/-- The segments that are read are those that were printed. -/
theorem integerSegs_print (nums : Text) (sign : Int) (hlo : Digits segLimit lo) {t : Nat}
    (ht : t < 10 ^ dpw) {fuel : Nat} (hfuel : lo.length + 1 < fuel) :
    integerSegs nums sign fuel (digitText (sigDigits lo t)) = .ok (lo ++ [t * sign]) := by
  induction lo generalizing fuel with
  | nil =>
    obtain ⟨fuel, rfl⟩ : ∃ n, fuel = n + 2 := ⟨fuel - 2, by simp at hfuel; omega⟩
    have hlen : (digitText (sigDigits [] t)).length ≤ dpw := by
      have hle := (Nat.digits_length_le_iff (by norm_num : 1 < 10) t).mpr ht
      have hd : 1 ≤ dpw := by decide
      simp only [sigDigits, List.reverse_nil, List.flatMap_nil, List.append_nil,
        digitText_length, digitsOf_length]
      omega
    have hread : strtoll (digitText (sigDigits [] t)) = ((t : Int), []) := by
      have hval : digitValue (sigDigits [] t) = t := by simp [sigDigits, digitValue_digitsOf]
      rw [strtoll_digitText (allDigits_sigDigits [] t) (sigDigits_ne_nil [] t), hval]
    have hstep := @integerSegs_chunk nums sign (fuel + 1) [] _ _ (Or.inr ⟨rfl, hlen⟩)
      (digitText_ne_nil (sigDigits_ne_nil [] t)) hread
    rw [List.nil_append] at hstep
    rw [hstep]
    rfl
  | cons x lo ih =>
    obtain ⟨fuel, rfl⟩ : ∃ n, fuel = n + 1 := ⟨fuel - 1, by omega⟩
    obtain ⟨hx, hlo⟩ := digits_cons.mp hlo
    obtain ⟨hseg, hlen⟩ := printSegment_eq hx
    have hpad : padded dpw x.natAbs ≠ [] := by
      rintro h
      rw [hseg, h] at hlen
      exact absurd hlen (by decide)
    have hread : strtoll (digitText (padded dpw x.natAbs)) = (x, []) := by
      rw [strtoll_digitText (allDigits_padded dpw x.natAbs) hpad, digitValue_padded,
        Int.natCast_natAbs, abs_of_nonneg hx.1]
    rw [sigDigits_cons, digitText_append,
      integerSegs_chunk nums sign fuel (Or.inl (hseg ▸ hlen)) (digitText_ne_nil hpad) hread,
      ih hlo (by simpa using hfuel), if_neg (digitText_ne_nil (sigDigits_ne_nil lo t))]
    rfl

/-- A normal significand has no leading zeros to drop. -/
theorem dropLeadingZeros_append (hlead : lo ≠ [] → t ≠ 0) :
    dropLeadingZeros (lo ++ [t]) = lo ++ [t] := by
  induction lo with
  | nil => rfl
  | cons x lo ih =>
    have ht : t ≠ 0 := hlead (by simp)
    rw [List.cons_append, dropLeadingZeros, ih (fun _ => ht)]
    cases lo with
    | nil => simp [ht]
    | cons y lo => simp

theorem withoutInexact_eq {nums : Text} (h : '#' ∉ nums) : withoutInexact nums = nums := by
  unfold withoutInexact
  conv_rhs => rw [← List.map_id nums]
  apply List.map_congr_left
  intro c hc
  have hne : c ≠ '#' := by
    rintro rfl
    exact h hc
  simp [hne]

/-- `idio_bignum_integer_C` on a sign and digits: the segments without leading zeros. -/
theorem integerC_digits (hs : IsSign sign neg) (h : AllDigits ds) (hne : ds ≠ []) (reqExact : Bool) :
    integerC (sign ++ digitText ds) reqExact =
      (integerSegs (sign ++ digitText ds) (if neg then -1 else 1) (ds.length + 1)
        (digitText ds)).map fun segs => integer (dropLeadingZeros segs) := by
  have hnotin : '#' ∉ sign ++ digitText ds := by
    rw [List.mem_append]
    rintro (hc | hc)
    · cases hs <;> simp at hc
    · exact not_mem_digitText h rfl hc
  have hexact : (sign ++ digitText ds).contains '#' = false := by
    rw [List.contains_eq_mem, decide_eq_false_iff_not]
    exact hnotin
  have hsplit : splitSign (withoutInexact (sign ++ digitText ds)) = (neg, digitText ds) := by
    rw [withoutInexact_eq hnotin]
    simpa using hs.splitSign_eq h hne []
  unfold integerC
  simp only [hsplit, hexact, Bool.not_false, Bool.or_true, Bool.true_and, digitText_length]
  cases integerSegs (sign ++ digitText ds) (if neg then -1 else 1) (ds.length + 1) (digitText ds) <;>
    rfl

/-- `idio_bignum_integer_C` on a sign and the digits of a normal significand. -/
theorem integerC_print {sign : Text} {neg : Bool} (hs : IsSign sign neg) {lo : Bsa} {t : Nat}
    (hlo : Digits segLimit lo) (ht : t < 10 ^ dpw) (hlead : lo ≠ [] → t ≠ 0) (reqExact : Bool) :
    integerC (sign ++ digitText (sigDigits lo t)) reqExact =
      .ok (integer (lo ++ [if neg then - (t : Int) else t])) := by
  have hfuel : lo.length + 1 < (sigDigits lo t).length + 1 := by
    have hpos := List.length_pos_of_ne_nil (digitsOf_ne_nil t)
    have hd : 1 ≤ dpw := by decide
    have hmul : lo.length ≤ dpw * lo.length := Nat.le_mul_of_pos_left _ hd
    rw [sigDigits_length hlo]
    omega
  have htop : (t : Int) * (if neg then -1 else 1) = if neg then - (t : Int) else t := by
    cases neg <;> simp
  have hdrop : dropLeadingZeros (lo ++ [if neg then - (t : Int) else t]) =
      lo ++ [if neg then - (t : Int) else t] := by
    apply dropLeadingZeros_append
    intro hne
    have := hlead hne
    split <;> omega
  rw [integerC_digits hs (allDigits_sigDigits lo t) (sigDigits_ne_nil lo t),
    integerSegs_print _ _ hlo ht hfuel, htop]
  show Except.ok (integer (dropLeadingZeros _)) = _
  rw [hdrop]

/-! ## Reading back what was printed: reals -/

/-- A digit is appended to the significand and counted in the exponent. -/
theorem pushDigit_digitChar {d : Nat} (hd : d < 10) {st : RealScan} {n : Int}
    (hst : IsInt st.sigBn n) (hn : 0 ≤ n) :
    ∃ sig, IsInt sig (10 * n + d) ∧
      pushDigit (digitChar d) st =
        .ok ⟨sig, if st.foundPeriod then st.exp - 1 else st.exp, st.foundPeriod, st.exact⟩ := by
  obtain ⟨-, -, hhash, -⟩ := digitChar_plain hd
  have hrange : intmaxMin ≤ (d : Int) ∧ (d : Int) ≤ intmaxMax := by
    simp only [intmaxMin, intmaxMax]
    omega
  obtain ⟨r, hr, hi⟩ := shiftLeft_isInt hst hn (by decide : (0 : Int) ≤ 0 ∧ (0 : Int) < 10)
  rw [add_zero] at hi
  obtain ⟨sig, hsig, hadd⟩ := add_isInt hi (integerIntmaxT_isInt hrange.1 hrange.2)
  refine ⟨sig, hadd, ?_⟩
  simp [pushDigit, hr, hhash, charDigit_digitChar hd, hsig, bind, Except.bind, pure, Except.pure]

/-- The loop over a string of digits. -/
theorem realDigits_digitText {ds : List Nat} (h : AllDigits ds) (rest : Text) {st : RealScan}
    {n : Int} (hst : IsInt st.sigBn n) (hn : 0 ≤ n) :
    ∃ sig, IsInt sig (n * 10 ^ ds.length + digitValue ds) ∧
      realDigits (digitText ds ++ rest) st =
        realDigits rest ⟨sig, if st.foundPeriod then st.exp - ds.length else st.exp,
          st.foundPeriod, st.exact⟩ := by
  induction ds generalizing st n with
  | nil => exact ⟨st.sigBn, by simpa using hst, by simp⟩
  | cons d ds ih =>
    obtain ⟨hd, hds⟩ := allDigits_cons.mp h
    obtain ⟨-, -, -, hdot, -⟩ := digitChar_plain hd
    obtain ⟨sig, hsig, hpush⟩ := pushDigit_digitChar hd hst hn
    obtain ⟨sig', hsig', hrun⟩ := @ih hds ⟨sig, if st.foundPeriod then st.exp - 1 else st.exp,
      st.foundPeriod, st.exact⟩ _ hsig (by omega)
    refine ⟨sig', ?_, ?_⟩
    · convert hsig' using 1
      rw [digitValue_cons, List.length_cons]
      push_cast
      ring
    · rw [digitText_cons, List.cons_append, realDigits, if_neg hdot,
        if_pos (by simp [isDigit_digitChar hd]), hpush]
      simp only [bind, Except.bind, hrun]
      cases st.foundPeriod
      · rfl
      · simp only [if_true, List.length_cons]
        congr 2
        push_cast
        ring

/-- An exponent as the printer writes it is read back. -/
theorem readExponent_print (exp : Int) {e : Int} (he : - segLimit < e ∧ e < segLimit) :
    readExponent exp ('e' :: printSigned e) = addExponents exp e := by
  have hsign : IsSign [if e < 0 then '-' else '+'] (decide (e < 0)) := by
    by_cases h : e < 0
    · simpa [h] using IsSign.minus
    · simpa [h] using IsSign.plus
  have hread := @integerC_print _ _ hsign [] e.natAbs (digits_nil _) (natAbs_lt_pow he)
    (by simp) true
  have hvalue : (if decide (e < 0) = true then - (e.natAbs : Int) else e.natAbs) = e := by
    by_cases h : e < 0
    · simp only [h, decide_true, if_true]
      omega
    · simp only [h, decide_false, Bool.false_eq_true, if_false]
      omega
  have hdigits : sigDigits [] e.natAbs = digitsOf e.natAbs := by simp [sigDigits]
  rw [hvalue, hdigits, List.nil_append, List.singleton_append] at hread
  rw [readExponent, if_pos (by decide), printSigned, hread]
  rfl

/-- `idio_bignum_real_C` on a sign, digits, a period, digits and an exponent. -/
theorem realC_print (hs : IsSign sign neg) {fs : List Nat} (hds : AllDigits ds) (hfs : AllDigits fs)
    (hne : ds ≠ []) {e : Int} (he : - segLimit < e ∧ e < segLimit) :
    ∃ sig, Magnitude sig ∧ toInt sig = digitValue (ds ++ fs) ∧
      realC (sign ++ (digitText ds ++ '.' :: (digitText fs ++ 'e' :: printSigned e))) =
        (addExponents (- (fs.length : Int)) e).bind fun exp =>
          normalize (real ⟨false, false, neg, false⟩ exp sig) := by
  have hzero : IsInt (integerIntmaxT 0) 0 := integerIntmaxT_isInt (by decide) (by decide)
  obtain ⟨s1, h1, hrun1⟩ := @realDigits_digitText ds hds
    ('.' :: (digitText fs ++ 'e' :: printSigned e)) ⟨integerIntmaxT 0, 0, false, true⟩ 0 hzero
    (le_refl _)
  rw [zero_mul, zero_add] at h1
  obtain ⟨s2, h2, hrun2⟩ := @realDigits_digitText fs hfs ('e' :: printSigned e)
    ⟨s1, 0, true, true⟩ _ h1 (by omega)
  have hvalue : (digitValue ds : Int) * 10 ^ fs.length + digitValue fs =
      (digitValue (ds ++ fs) : Int) := by
    rw [digitValue_append]
    push_cast
    ring
  rw [hvalue] at h2
  have hmag := h2.magnitude (by omega)
  obtain ⟨hdrop, hdropv⟩ := dropLeadingZeros_spec hmag.digits hmag.nonempty
  refine ⟨dropLeadingZeros s2.sig, hdrop, ?_, ?_⟩
  · rw [hdrop.toInt_eq, hdropv, ← hmag.toInt_eq, h2.toInt_eq]
  · have hstop : ∀ st, realDigits ('e' :: printSigned e) st = .ok (st, 'e' :: printSigned e) := by
      intro st
      rw [realDigits, if_neg (by decide), if_neg (by decide)]
    have hdot : ∀ st s, realDigits ('.' :: s) st = realDigits s { st with foundPeriod := true } := by
      intro st s
      rw [realDigits, if_pos rfl]
    unfold realC
    simp only [hs.splitSign_eq hds hne, hrun1, Bool.false_eq_true, if_false, hdot, hrun2, hstop,
      if_true, zero_sub, bind, Except.bind, readExponent_print _ he]
    rfl

end Bignum

end Idio
