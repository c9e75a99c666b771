/-
  Read.lean --- the number reader, and that it reads back what is printed.

  `readNumberC` scans a word once to see what kind of number it is, if any, and
  hands it to `idio_fixnum_C` or `idio_bignum_C`; `readNumber` adds the `#e` and
  `#i` prefixes.

  An integer bignum always comes back (`integer_print_read`).  A real does unless
  its printed exponent has no room: the printer forms the exponent of the first
  digit in an `int32_t`, which wraps round beyond `IDIO_BE_MAX`, and the reader
  turns a single digit into two, which takes one from the exponent.  `Printable`
  is the condition that neither happens, and `print_read` says that it is exact.
-/
import Idio.Text

set_option autoImplicit false

namespace Idio

open Bignum Decimal DigitString Positional

/-! ## The scanner -/

/-- The flags of the loop of `idio_read_number_C`. -/
structure NumberScan where
  hasDigit : Bool
  hasPeriod : Bool
  hasExp : Bool
  inexact : Bool
  deriving DecidableEq, Repr

/-- `isdigit (c) || IDIO_CHAR_HASH == c`. -/
def digitOrHash (c : Char) : Bool := c.isDigit || c = '#'

/-- The loop of `idio_read_number_C`; `none` where it returns `#n`. -/
def scanNumber (hasSign : Bool) : Text → NumberScan → Option NumberScan
  | [], st => some st
  | c :: s, st =>
      let st := if c = '#' then { st with inexact := true } else st
      if expChar c && st.hasDigit && !st.hasExp then
        match s with
        | [] => none
        | d :: s' =>
            if digitOrHash d then scanNumber hasSign (d :: s') { st with hasExp := true }
            else if (d = '+' || d = '-') && (s'.head?.any digitOrHash) then
              scanNumber hasSign s' { st with hasExp := true }
            else none
      else if c = '.' && !st.hasPeriod then scanNumber hasSign s { st with hasPeriod := true }
      else if c = '#' && (st.hasDigit || st.hasPeriod || hasSign) then
        scanNumber hasSign s { st with hasDigit := true }
      else if c.isDigit then scanNumber hasSign s { st with hasDigit := true }
      else none

/-- `idio_fixnum_C` to base 10. -/
def fixnumC (str : Text) : Result Num :=
  let i := strtoll str
  if i.2 = str then
    .error (.fixnumConversionError
      ("idio_fixnum_C: strtoll (" ++ String.ofList str ++ "): No digits?"))
  else if i.2 = [] then .ok (.fixnum i.1)
  else
    .error (.fixnumConversionError
      ("idio_fixnum_C: strtoll (" ++ String.ofList str ++ ") = " ++ toString i.1))

/-- The bits of a fixnum less a sign bit: `sizeof (intptr_t) * CHAR_BIT -
IDIO_TYPE_BITS - 1`. -/
def fixnumBits : Nat := 61

/-- A sign the word starts with. -/
def splitWord : Text → Bool × Text
  | '+' :: s => (true, s)
  | '-' :: s => (true, s)
  | s => (false, s)

/-- `idio_read_number_C`; `none` stands for `#n`, not a number. -/
def readNumberC (str : Text) : Result (Option Num) :=
  let (hasSign, s) := splitWord str
  if s = [] then .ok none
  else
    match scanNumber hasSign s ⟨false, false, false, false⟩ with
    | none => .ok none
    | some st =>
        if st.hasPeriod || st.hasExp || st.inexact then
          (bignumC str).map fun bn => some (.bignum bn)
        else if (str.length - 1) * 4 < fixnumBits then (fixnumC str).map some
        else (bignumC str).map fun bn => some (toFixnum bn)

/-- What follows `#i`: an integer becomes a real, and a real is flagged. -/
def makeInexact (bn : Bignum) : Result Bignum := do
  let r ← if bn.flags.integer then
      normalize (real ⟨false, false, negativeP bn, false⟩ 0 (Bignum.abs bn).sig)
    else pure bn
  pure { r with flags := { r.flags with realInexact := true } }

/-- The number reader: a number, or `#e` or `#i` and a number. -/
def readNumber : Text → Result (Option Num)
  | '#' :: 'e' :: s => do
      match ← readNumber s with
      | none => .error (.readErrorParse "number expected after #e")
      | some n => pure (some n)
  | '#' :: 'i' :: s => do
      match ← readNumber s with
      | none => .error (.readErrorParse "number expected after #i")
      | some n => (makeInexact n.toBignum).map fun bn => some (.bignum bn)
  | s => readNumberC s

/-! ## Scanning what was printed -/

variable {ds : List Nat}

/-- A run of digits only sets `hasDigit`. -/
theorem scanNumber_digitText (hasSign : Bool) (h : AllDigits ds) (hne : ds ≠ []) (rest : Text)
    (st : NumberScan) :
    scanNumber hasSign (digitText ds ++ rest) st =
      scanNumber hasSign rest { st with hasDigit := true } := by
  induction ds generalizing st with
  | nil => exact absurd rfl hne
  | cons d ds ih =>
    obtain ⟨hd, hds⟩ := allDigits_cons.mp h
    obtain ⟨-, hexp, hhash, hdot, -⟩ := digitChar_plain hd
    have hstep : scanNumber hasSign (digitChar d :: (digitText ds ++ rest)) st =
        scanNumber hasSign (digitText ds ++ rest) { st with hasDigit := true } := by
      conv_lhs => unfold scanNumber
      simp [hexp, hhash, hdot, isDigit_digitChar hd]
    rw [digitText_cons, List.cons_append, hstep]
    by_cases hnil : ds = []
    · rw [hnil]
      rfl
    · rw [ih hds hnil]

theorem scanNumber_dot (hasSign : Bool) (rest : Text) {st : NumberScan}
    (h : st.hasPeriod = false) :
    scanNumber hasSign ('.' :: rest) st = scanNumber hasSign rest { st with hasPeriod := true } := by
  have hexp : expChar '.' = false := by decide
  conv_lhs => unfold scanNumber
  simp [hexp, h]

/-- An exponent as the printer writes it. -/
theorem scanNumber_exponent (hasSign : Bool) (e : Int) {st : NumberScan}
    (hdigit : st.hasDigit = true) (hexp : st.hasExp = false) :
    scanNumber hasSign ('e' :: printSigned e) st = some { st with hasExp := true } := by
  have hd := allDigits_digitsOf e.natAbs
  obtain ⟨d, ds, hds⟩ := List.exists_cons_of_ne_nil (digitsOf_ne_nil e.natAbs)
  have hnext : (digitText (digitsOf e.natAbs)).head?.any digitOrHash = true := by
    rw [hds] at hd ⊢
    simp [digitOrHash, isDigit_digitChar (allDigits_cons.mp hd).1]
  have hrun : scanNumber hasSign (digitText (digitsOf e.natAbs)) ⟨true, st.hasPeriod, true,
      st.inexact⟩ = some ⟨true, st.hasPeriod, true, st.inexact⟩ := by
    have h := scanNumber_digitText hasSign hd (digitsOf_ne_nil _) []
      ⟨true, st.hasPeriod, true, st.inexact⟩
    rwa [List.append_nil] at h
  have he : expChar 'e' = true := by decide
  conv_lhs => unfold scanNumber
  simp only [printSigned, he, hdigit, hexp]
  by_cases hneg : e < 0
  · simpa [hneg, digitOrHash, hnext, hdigit, hexp] using hrun
  · simpa [hneg, digitOrHash, hnext, hdigit, hexp] using hrun

variable {neg : Bool} {sign : Text}

theorem splitWord_print (hs : IsSign sign neg) (h : AllDigits ds) (hne : ds ≠ []) (rest : Text) :
    ∃ hasSign, splitWord (sign ++ (digitText ds ++ rest)) = (hasSign, digitText ds ++ rest) := by
  cases hs with
  | plus => exact ⟨true, rfl⟩
  | minus => exact ⟨true, rfl⟩
  | none =>
    obtain ⟨d, ds, rfl⟩ := List.exists_cons_of_ne_nil hne
    obtain ⟨-, -, -, -, hplus, hminus⟩ := digitChar_plain (allDigits_cons.mp h).1
    refine ⟨false, ?_⟩
    simp only [digitText_cons, List.cons_append, List.nil_append]
    unfold splitWord
    split
    · rename_i heq
      exact absurd (List.cons.inj heq).1 hplus
    · rename_i heq
      exact absurd (List.cons.inj heq).1 hminus
    · rfl

/-- A word that does not start with `#` has no prefix. -/
theorem readNumber_of_sign (hs : IsSign sign neg) (h : AllDigits ds) (hne : ds ≠ []) (rest : Text) :
    readNumber (sign ++ (digitText ds ++ rest)) = readNumberC (sign ++ (digitText ds ++ rest)) := by
  have hhead : ∀ s : Text, sign ++ (digitText ds ++ rest) ≠ '#' :: s := by
    intro s heq
    cases hs with
    | plus => exact absurd (List.cons.inj heq).1 (by decide)
    | minus => exact absurd (List.cons.inj heq).1 (by decide)
    | none =>
      obtain ⟨d, ds, rfl⟩ := List.exists_cons_of_ne_nil hne
      obtain ⟨-, -, hhash, -⟩ := digitChar_plain (allDigits_cons.mp h).1
      exact hhash (List.cons.inj heq).1
  rw [readNumber]
  · intro s heq
    exact hhead _ heq
  · intro s heq
    exact hhead _ heq

/-! ## Integers -/

/-- The text of the integer `a` is read as an integer of the same value. -/
def RoundTripsInteger (a : NormalInteger) : Prop :=
  ∃ x : Number, readNumber (asString a.bn) = .ok (some x.toNum) ∧ x.IsInteger ∧
    x.intValue = a.toInt

theorem fixnumC_print (hs : IsSign sign neg) (h : AllDigits ds) (hne : ds ≠ []) :
    fixnumC (sign ++ digitText ds) =
      .ok (.fixnum (if neg then - (digitValue ds : Int) else digitValue ds)) := by
  have hread := strtoll_print hs h hne
  have hrest : [] ≠ sign ++ digitText ds := by
    intro heq
    exact digitText_ne_nil hne (List.append_eq_nil_iff.mp heq.symm).2
  simp only [fixnumC, hread, if_neg hrest, if_pos]

/-- The bignum reader on a sign and digits is the integer reader. -/
theorem bignumC_print (hs : IsSign sign neg) (h : AllDigits ds) :
    bignumC (sign ++ digitText ds) = integerC (sign ++ digitText ds) false := by
  have hany : ((sign ++ digitText ds).any fun c => c = '.' || expChar c) = false := by
    rw [List.any_eq_false]
    intro c hc
    rcases List.mem_append.mp hc with hc | hc
    · cases hs with
      | none => simp at hc
      | plus =>
        rw [List.mem_singleton.mp hc]
        decide
      | minus =>
        rw [List.mem_singleton.mp hc]
        decide
    · obtain ⟨d, hd, rfl⟩ := List.mem_map.mp hc
      obtain ⟨-, hexp, -, hdot, -⟩ := digitChar_plain (h d hd)
      simp [hexp, hdot]
  rw [bignumC, hany]
  rfl

/-- The printed integer is read as a fixnum if it is in the range of fixnums. -/
theorem readNumberC_integer (a : NormalInteger) :
    readNumber (asString a.bn) = readNumberC (asString a.bn) ∧
      readNumberC (asString a.bn) = .ok (some
        (if InFixnumRange a.toInt then .fixnum a.toInt else .bignum (integer a.bn.sig))) := by
  obtain ⟨lo, t, hsig, hlo, ht, hlead⟩ := a.normal.split
  have hdigits := allDigits_sigDigits lo t.natAbs
  have hne := sigDigits_ne_nil lo t.natAbs
  have htext : asString a.bn =
      (if decide (t < 0) then ['-'] else []) ++ digitText (sigDigits lo t.natAbs) := by
    rw [asString, if_pos a.isInteger, integerAsString_eq hsig hlo]
    simp
  generalize hneg : decide (t < 0) = neg at htext
  have hs := isSign_printInt neg
  generalize (if neg then ['-'] else [] : Text) = sign at htext hs
  have ht' : (if neg then - (t.natAbs : Int) else t.natAbs) = t := by
    rw [← hneg]
    split
    · rename_i h
      have := of_decide_eq_true h
      omega
    · rename_i h
      have : ¬ t < 0 := fun hlt => h (decide_eq_true hlt)
      omega
  obtain ⟨hasSign, hword⟩ := splitWord_print hs hdigits hne []
  have hplain := readNumber_of_sign hs hdigits hne []
  have hscan := scanNumber_digitText hasSign hdigits hne [] ⟨false, false, false, false⟩
  simp only [List.append_nil] at hword hplain hscan
  have hread : readNumberC (asString a.bn) =
      if ((sign ++ digitText (sigDigits lo t.natAbs)).length - 1) * 4 < fixnumBits then
        (fixnumC (sign ++ digitText (sigDigits lo t.natAbs))).map some
      else (bignumC (sign ++ digitText (sigDigits lo t.natAbs))).map
        fun bn => some (toFixnum bn) := by
    rw [htext]
    simp [readNumberC, hword, hscan, digitText_ne_nil hne, scanNumber]
  have hint : IsInt (integer (lo ++ [t])) a.toInt := by
    have hnorm := a.normal
    rw [hsig] at hnorm
    exact ⟨rfl, hnorm, by rw [NormalInteger.toInt, hsig]; rfl⟩
  refine ⟨by rw [htext, hplain], ?_⟩
  rw [hsig, hread]
  split
  · -- A short word has one segment and is read by `strtoll`.
    rename_i hshort
    have hnil : lo = [] := by
      by_contra hne'
      have hpos := List.length_pos_of_ne_nil hne'
      rw [List.length_append, digitText_length, sigDigits_length hlo] at hshort
      simp only [fixnumBits, dpw] at hshort
      omega
    subst hnil
    have hvalue : digitValue (sigDigits [] t.natAbs) = t.natAbs := by
      simp [sigDigits, digitValue_digitsOf]
    have hlt : t.natAbs < 10 ^ 17 := by
      have hd := digitValue_lt hdigits
      rw [hvalue] at hd
      rw [List.length_append, digitText_length] at hshort
      simp only [fixnumBits] at hshort
      exact lt_of_lt_of_le hd (Nat.pow_le_pow_right (by decide) (by omega))
    have hv := hint.toInt_eq
    rw [integer_sig, toInt_append] at hv
    have htv : t = a.toInt := by simpa using hv
    have hrange : InFixnumRange a.toInt := by
      rw [← htv]
      simp only [InFixnumRange, fixnumMin, fixnumMax]
      omega
    rw [fixnumC_print hs hdigits hne, hvalue, ht', if_pos hrange, htv]
    rfl
  · rw [bignumC_print hs hdigits, integerC_print hs hlo (natAbs_lt_pow ht)
      (fun h => by simpa using hlead h), ht']
    show Except.ok (some (toFixnum (integer (lo ++ [t])))) = _
    rw [toFixnum_isInt hint]

/-- **Integers are read back**, whatever their number of digits. -/
theorem integer_print_read (a : NormalInteger) : RoundTripsInteger a := by
  obtain ⟨hplain, hread⟩ := readNumberC_integer a
  have hint : IsInt (integer a.bn.sig) a.toInt := ⟨rfl, a.normal, rfl⟩
  rw [RoundTripsInteger, hplain, hread]
  by_cases hrange : InFixnumRange a.toInt
  · rw [if_pos hrange]
    exact ⟨.fixnum a.toInt hrange, rfl, trivial, rfl⟩
  · rw [if_neg hrange]
    exact ⟨.integer hint.toNormal, rfl, trivial, hint.toInt_eq⟩

/-! ## Reals -/

/-- The text of the real `r` is read as a real of the same value and exactness. -/
def RoundTripsReal (r : NormalReal) : Prop :=
  ∃ r' : NormalReal, readNumber (asString r.bn) = .ok (some (.bignum r'.bn)) ∧
    r'.toRat = r.toRat ∧ r'.inexact = r.inexact

/-- The exponent of the first digit is an `int32_t`, and, when there is only one
digit, the exponent of the place after it is too. -/
def Printable (r : NormalReal) : Prop :=
  r.exp + countDigits r.bn.sig - 1 ≤ beMax ∧ ¬ (countDigits r.bn.sig = 1 ∧ r.exp = beMin)

instance (r : NormalReal) : Decidable (Printable r) := inferInstanceAs (Decidable (_ ∧ _))

/-- The digits after the period. -/
def fraction (ds : List Nat) : List Nat := if ds = [] then [0] else ds

/-- The exponent that is printed, that of the first digit. -/
def printedExp (r : NormalReal) : Int := wrap32 (r.exp + countDigits r.bn.sig - 1)

variable {d : Nat} {r : NormalReal}

theorem countDigits_eq_length (h : digitsOf r.sig.natAbs = d :: ds) :
    countDigits r.bn.sig = ds.length + 1 := by
  have hlen : (digitsOf r.sig.natAbs).length = ds.length + 1 := by rw [h, List.length_cons]
  have hnat : r.sig.toNat = r.sig.natAbs := by
    have := r.sig_range.1
    omega
  rw [r.hasMagnitude.countDigits_eq, decimalDigits, hnat, ← digitsOf_length, hlen]

theorem asString_real (h : digitsOf r.sig.natAbs = d :: ds) :
    asString r.bn = (if r.inexact then ['#', 'i'] else []) ++
      ((if realNegativeP r.bn then ['-'] else []) ++ (digitText [d] ++
        '.' :: (digitText (fraction ds) ++ 'e' :: printSigned (printedExp r)))) := by
  have htop : printInt (bsaTop r.bn.sig) = digitChar d :: digitText ds := by
    have hsig : bsaTop r.bn.sig = r.sig := rfl
    rw [hsig, printInt, if_neg (by have := r.sig_range.1; omega), h]
    rfl
  have hfrac : (if digitText ds ≠ [] then digitText ds else ['0']) = digitText (fraction ds) := by
    cases ds with
    | nil => rfl
    | cons x xs => simp [fraction]
  have hlower : lowerText r.bn.sig = [] := rfl
  have hlen : r.bn.sig.length = 1 := rfl
  have hflags : r.bn.flags.integer = false ∧ r.bn.flags.realInexact = r.inexact := ⟨rfl, rfl⟩
  have hexp : r.bn.exp = r.exp := rfl
  simp only [asString, hflags.1, Bool.false_eq_true, if_false, realAsString, htop, hlower, hlen,
    hflags.2, hexp, List.tail_cons, if_true, hfrac, printedExp]
  simp

theorem fraction_digits (h : AllDigits ds) : AllDigits (fraction ds) := by
  unfold fraction
  split
  · simp
  · exact h

theorem fraction_ne_nil (ds : List Nat) : fraction ds ≠ [] := by
  unfold fraction
  split
  · simp
  · rename_i h
    exact h

/-- `idio_read_number_C` on the text of a real, its `#i` taken off: the exponent is
the printed one less the digits after the period. -/
theorem readNumberC_real {sign : Text} {neg : Bool} (hs : IsSign sign neg) {d : Nat}
    {fs : List Nat} (hd : d < 10) (hfs : AllDigits fs) (hne : fs ≠ []) {e : Int}
    (he : - segLimit < e ∧ e < segLimit) :
    ∃ sig, Magnitude sig ∧ toInt sig = digitValue (d :: fs) ∧
      readNumberC (sign ++ (digitText [d] ++ '.' :: (digitText fs ++ 'e' :: printSigned e))) =
        ((addExponents (- (fs.length : Int)) e).bind fun exp =>
          normalize (real ⟨false, false, neg, false⟩ exp sig)).map
            fun bn => some (.bignum bn) := by
  have hds : AllDigits [d] := allDigits_cons.mpr ⟨hd, allDigits_nil⟩
  obtain ⟨sig, hmag, hval, hrun⟩ := realC_print hs hds hfs (by simp) he
  obtain ⟨hasSign, hword⟩ := splitWord_print hs hds (by simp)
    ('.' :: (digitText fs ++ 'e' :: printSigned e))
  have hscan : scanNumber hasSign (digitText [d] ++ '.' :: (digitText fs ++ 'e' :: printSigned e))
      ⟨false, false, false, false⟩ = some ⟨true, true, true, false⟩ := by
    rw [scanNumber_digitText hasSign hds (by simp), scanNumber_dot hasSign _ rfl,
      scanNumber_digitText hasSign hfs hne, scanNumber_exponent hasSign e rfl rfl]
  have hreal : bignumC (sign ++ (digitText [d] ++ '.' :: (digitText fs ++ 'e' :: printSigned e))) =
      realC (sign ++ (digitText [d] ++ '.' :: (digitText fs ++ 'e' :: printSigned e))) := by
    rw [bignumC, if_pos]
    simp
  refine ⟨sig, hmag, hval, ?_⟩
  simp only [readNumberC, hword, hscan, hreal, hrun]
  simp

/-- An exponent is lowered by the digits after the period. -/
theorem addExponents_fraction {f : Nat} {e : Int} (hf : f ≤ 18) (he : beMin ≤ e ∧ e ≤ beMax) :
    addExponents (- (f : Int)) e =
      if beMin + f ≤ e then .ok (e - f)
      else .error (.bignumConversionError "exponent underflow") := by
  have hmin : beMin = -2147483648 := rfl
  have hmax : beMax = 2147483647 := rfl
  unfold addExponents
  rcases lt_trichotomy e 0 with hneg | rfl | hpos
  · rw [if_neg (by omega), if_pos hneg, if_neg (by omega), abs_of_neg hneg,
      abs_of_nonpos (by omega : beMin - - (f : Int) ≤ 0)]
    by_cases hle : beMin + f ≤ e
    · rw [if_neg (by omega), if_pos hle]
      congr 1
      ring
    · rw [if_pos (by omega), if_neg hle]
  · rw [if_neg (by omega), if_neg (by omega), if_pos (by omega), zero_sub]
  · rw [if_pos hpos, if_neg (by omega), if_neg (by omega), if_pos (by omega)]
    congr 1
    ring

theorem fraction_length (ds : List Nat) : (fraction ds).length = max 1 ds.length := by
  unfold fraction
  split
  · rename_i hnil
    simp [hnil]
  · rename_i hne
    have := List.length_pos_of_ne_nil hne
    omega

theorem printedExp_range (r : NormalReal) : beMin ≤ printedExp r ∧ printedExp r ≤ beMax := by
  simp only [printedExp, wrap32, beMin, beMax]
  omega

/-- A printable exponent has room for the digits after the period, and one that is
not printable wraps round to where it has none. -/
theorem printable_iff (h : digitsOf r.sig.natAbs = d :: ds) :
    (Printable r ↔ beMin + (fraction ds).length ≤ printedExp r) ∧
      (Printable r → printedExp r = r.exp + ds.length) ∧ (fraction ds).length ≤ 18 := by
  have hcount := countDigits_eq_length h
  have hmax : countDigits r.bn.sig ≤ 18 := by
    rw [r.hasMagnitude.countDigits_eq]
    have := r.digits_le
    simp only [sigMaxDigits] at this
    omega
  have hrange := r.exp_range
  have hfrac := fraction_length ds
  have hmin : beMin = -2147483648 := rfl
  have hmax' : beMax = 2147483647 := rfl
  have hprinted : printedExp r = wrap32 (r.exp + (ds.length + 1 : Nat) - 1) := by
    rw [printedExp, hcount]
  unfold wrap32 at hprinted
  rw [Printable, hcount]
  refine ⟨?_, ?_, ?_⟩
  · omega
  · omega
  · omega

/-- The digits that are read, at the exponent that is computed, are the value. -/
theorem fraction_value (h : digitsOf r.sig.natAbs = d :: ds) {e : Int} (he : e = r.exp + ds.length) :
    ((digitValue (d :: fraction ds) : Int) : ℚ) * 10 ^ (e - (fraction ds).length) =
      r.absRat := by
  subst he
  have hvalue : digitValue (d :: ds) = r.sig.natAbs := by rw [← h, digitValue_digitsOf]
  have hsig : (r.sig.natAbs : Int) = r.sig := Int.natAbs_of_nonneg r.sig_range.1
  unfold fraction
  split
  · rename_i hnil
    have hten : digitValue [d, 0] = 10 * digitValue (d :: ds) := by
      simp [hnil, digitValue]
    have hint : ((10 * r.sig.natAbs : Nat) : Int) = 10 * r.sig := by
      rw [Nat.cast_mul, hsig]
      rfl
    rw [hten, hvalue, hint, hnil, NormalReal.absRat]
    simp only [List.length_nil, List.length_singleton, Nat.cast_zero, Nat.cast_one, add_zero]
    rw [zpow_sub₀ (by norm_num)]
    push_cast
    field_simp
  · rw [hvalue, hsig, add_sub_cancel_right]
    rfl

/-- `normalize` has nothing to drop from a value that is a normal real's. -/
theorem normalize_of_absRat {bn : Bignum} {m : Int} (h : HasMagnitude bn m)
    (hexp : beMin ≤ bn.exp ∧ bn.exp ≤ beMax) {r : NormalReal}
    (hr : (m : ℚ) * 10 ^ bn.exp = r.absRat) :
    ∃ r' : NormalReal, normalize bn = .ok r'.bn ∧ r'.negative = bn.flags.realNegative ∧
      r'.inexact = bn.flags.realInexact ∧ r'.absRat = r.absRat := by
  have htrunc : truncate sigMaxDigits ((m : ℚ) * 10 ^ bn.exp) = r.absRat := by
    rw [hr, NormalReal.absRat, truncate_mul_zpow_of_le r.sig_range.1 r.digits_le]
  rcases normalize_outcome h hexp with ⟨r', hrun, hneg, hinexact, hval⟩ | ⟨-, hnone⟩
  · exact ⟨r', hrun, hneg, hinexact, by rw [hval, htrunc]⟩
  · exact absurd htrunc.symm (hnone r)

/-- The real flagged inexact, as it is after `#i`. -/
def asInexact (r : NormalReal) : NormalReal := { r with inexact := true }

theorem readNumber_inexact (s : Text) :
    readNumber ('#' :: 'i' :: s) =
      (do
        match ← readNumber s with
        | none => .error (.readErrorParse "number expected after #i")
        | some n => (makeInexact n.toBignum).map fun bn => some (.bignum bn)) := by
  rw [readNumber]

theorem toRat_of_absRat {r' : NormalReal} (habs : r'.absRat = r.absRat)
    (hneg : r'.negative = realNegativeP r.bn) : r'.toRat = r.toRat := by
  by_cases h0 : r.sig = 0
  · have hr : r.absRat = 0 := r.absRat_eq_zero_iff.mpr h0
    rw [(r.toRat_eq_zero_iff).mpr h0, r'.toRat_eq_zero_iff, ← r'.absRat_eq_zero_iff, habs, hr]
  · have hz : realNegativeP r.bn = r.negative := by
      simp [realNegativeP, realZeroP, NormalReal.bn, h0]
    rw [NormalReal.toRat, NormalReal.toRat, hneg, hz, habs]

/-- What the reader makes of the text of a real. -/
theorem readNumber_real (r : NormalReal) :
    (Printable r ∧ RoundTripsReal r) ∨
      (¬ Printable r ∧ readNumber (asString r.bn) =
        .error (.bignumConversionError "exponent underflow")) := by
  obtain ⟨d, ds, h⟩ := List.exists_cons_of_ne_nil (digitsOf_ne_nil r.sig.natAbs)
  have hall := allDigits_digitsOf r.sig.natAbs
  rw [h] at hall
  obtain ⟨hd, hds⟩ := allDigits_cons.mp hall
  obtain ⟨hiff, hexp, hfrac⟩ := printable_iff h
  have hrange := printedExp_range r
  have hmin : beMin = -2147483648 := rfl
  have hmax : beMax = 2147483647 := rfl
  have hL : segLimit = 1000000000000000000 := rfl
  have hs := isSign_printInt (realNegativeP r.bn)
  obtain ⟨sig, hmag, hval, hbody⟩ :=
    @readNumberC_real _ _ hs _ _ hd (fraction_digits hds) (fraction_ne_nil ds) (printedExp r)
      (by omega)
  have hplain := readNumber_of_sign hs (allDigits_cons.mpr ⟨hd, allDigits_nil⟩) (by simp)
    ('.' :: (digitText (fraction ds) ++ 'e' :: printSigned (printedExp r)))
  rw [addExponents_fraction hfrac hrange] at hbody
  have htext := asString_real h
  generalize (if realNegativeP r.bn then ['-'] else [] : Text) ++ (digitText [d] ++
    '.' :: (digitText (fraction ds) ++ 'e' :: printSigned (printedExp r))) = body
    at hbody hplain htext
  by_cases hp : Printable r
  · have hroom := hiff.mp hp
    obtain ⟨r', hrun, hneg, hexact, habs⟩ := @normalize_of_absRat
      (real ⟨false, false, realNegativeP r.bn, false⟩ (printedExp r - (fraction ds).length) sig)
      (digitValue (d :: fraction ds)) ⟨hmag, hval⟩ ⟨by rw [real_exp]; omega, by rw [real_exp]; omega⟩
      r (fraction_value h (hexp hp))
    have hbody' : readNumber body = .ok (some (.bignum r'.bn)) := by
      rw [hplain, hbody, if_pos hroom]
      simp only [Except.bind, hrun]
      rfl
    refine Or.inl ⟨hp, ?_⟩
    cases hinexact : r.inexact with
    | false =>
      refine ⟨r', ?_, toRat_of_absRat habs hneg, by rw [hexact, hinexact]; rfl⟩
      rw [htext, hinexact]
      exact hbody'
    | true =>
      refine ⟨asInexact r', ?_, toRat_of_absRat habs hneg, by rw [hinexact]; rfl⟩
      rw [htext, hinexact]
      simp only [if_true, List.cons_append, List.nil_append, readNumber_inexact, hbody']
      rfl
  · have hbody' : readNumber body = .error (.bignumConversionError "exponent underflow") := by
      rw [hplain, hbody, if_neg (mt hiff.mpr hp)]
      rfl
    refine Or.inr ⟨hp, ?_⟩
    rw [htext]
    cases r.inexact with
    | false => exact hbody'
    | true =>
      simp only [if_true, List.cons_append, List.nil_append, readNumber_inexact, hbody']
      rfl

/-- **Printing, then reading.**  Every integer bignum is read back as an integer of
its value; a real is read back as a real of its value and exactness exactly when
its exponent is printable. -/
theorem print_read (a : NormalInteger) (r : NormalReal) :
    RoundTripsInteger a ∧ (RoundTripsReal r ↔ Printable r) := by
  refine ⟨integer_print_read a, ?_⟩
  rcases readNumber_real r with ⟨hp, hr⟩ | ⟨hp, herr⟩
  · exact iff_of_true hr hp
  · refine iff_of_false ?_ hp
    rintro ⟨r', hok, -⟩
    rw [herr] at hok
    cases hok

/-- `12e2147483647`, printed as `1.2e-2147483648`. -/
def wrappedReal : NormalReal := exactReal beMax 12 beMax_range (by decide) (by decide)

/-- It is not read back: its exponent has wrapped round. -/
theorem wrappedReal_not_read : ¬ RoundTripsReal wrappedReal := by
  intro hr
  have hp : ¬ Printable wrappedReal := by decide
  rcases readNumber_real wrappedReal with ⟨h, -⟩ | ⟨-, herr⟩
  · exact hp h
  · obtain ⟨r', hread, -⟩ := hr
    rw [herr] at hread
    cases hread

end Idio
