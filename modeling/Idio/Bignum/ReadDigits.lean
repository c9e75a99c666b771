/-
  Bignum/ReadDigits.lean --- integers read from strings of digits of any length.

  `integerC` cuts a string of digits into chunks of `dpw` from the right and puts
  the sign on the last chunk it forms, the leading one.  Zeros in front are
  allowed, so that the leading chunk can be zero, and then there is nothing for
  the sign to be put on: the number is read without it.

  The exponent of a real is read by the same function.
-/
import Idio.Bignum.CType

set_option autoImplicit false

namespace Idio

namespace Bignum

open Decimal DigitString Positional

/-- The digits of the chunk that is formed last. -/
def leadingChunk (ds : List Nat) : List Nat := ds.take ((ds.length - 1) % dpw + 1)

/-- The number that a sign and digits denote. -/
def signedValue (neg : Bool) (ds : List Nat) : Int :=
  if neg then - (digitValue ds : Int) else digitValue ds

theorem leadingChunk_of_le {ds : List Nat} (h : ds.length ≤ dpw) : leadingChunk ds = ds := by
  have hd : 0 < dpw := by decide
  apply List.take_of_length_le
  rw [Nat.mod_eq_of_lt (by omega)]
  omega

/-- The chunks behind do not change the leading one. -/
theorem leadingChunk_append {front chunk : List Nat} (hne : front ≠ [])
    (hlen : chunk.length = dpw) : leadingChunk (front ++ chunk) = leadingChunk front := by
  have hpos := List.length_pos_of_ne_nil hne
  have hmod : (front.length + dpw - 1) % dpw = (front.length - 1) % dpw := by
    rw [show front.length + dpw - 1 = front.length - 1 + dpw by omega, Nat.add_mod_right]
  have hle : (front.length - 1) % dpw ≤ front.length - 1 := Nat.mod_le _ _
  rw [leadingChunk, List.length_append, hlen, hmod, List.take_append_of_le_length (by omega),
    leadingChunk]

/-- **The segments of a string of digits.**  The sign is put on the leading chunk. -/
theorem integerSegs_digits (nums : Text) (sign : Int) {ds : List Nat} (h : AllDigits ds)
    (hne : ds ≠ []) {fuel : Nat} (hfuel : ds.length < fuel) :
    ∃ lo : Bsa, Digits segLimit lo ∧
      value segLimit lo + segLimit ^ lo.length * digitValue (leadingChunk ds) = digitValue ds ∧
      integerSegs nums sign fuel (digitText ds) =
        .ok (lo ++ [digitValue (leadingChunk ds) * sign]) := by
  induction fuel generalizing ds with
  | zero => exact absurd hfuel (Nat.not_lt_zero _)
  | succ fuel ih =>
    have hpos := List.length_pos_of_ne_nil hne
    by_cases hle : ds.length ≤ dpw
    · obtain ⟨fuel, rfl⟩ : ∃ n, fuel = n + 1 := ⟨fuel - 1, by omega⟩
      have hstep := @integerSegs_chunk nums sign (fuel + 1) [] _ _
        (.inr ⟨rfl, by rw [digitText_length]; exact hle⟩) (digitText_ne_nil hne)
        (strtoll_digitText h hne)
      rw [List.nil_append] at hstep
      refine ⟨[], digits_nil _, ?_, ?_⟩
      · rw [leadingChunk_of_le hle, value_nil, List.length_nil, pow_zero, one_mul, zero_add]
      · rw [hstep, leadingChunk_of_le hle]
        rfl
    · obtain ⟨front, chunk, rfl, hlen, hfront⟩ : ∃ front chunk,
          ds = front ++ chunk ∧ chunk.length = dpw ∧ front ≠ [] := by
        refine ⟨ds.take (ds.length - dpw), ds.drop (ds.length - dpw),
          (List.take_append_drop _ _).symm, by rw [List.length_drop]; omega, ?_⟩
        apply List.ne_nil_of_length_pos
        rw [List.length_take]
        omega
      obtain ⟨hf, hc⟩ := allDigits_append.mp h
      have hd : 0 < dpw := by decide
      have hcne : chunk ≠ [] := List.ne_nil_of_length_pos (by omega)
      rw [List.length_append] at hfuel
      obtain ⟨lo, hlo, hval, hrun⟩ := ih hf hfront (by omega)
      have hchunk : (digitValue chunk : Int) < segLimit := by
        have hlt := digitValue_lt hc
        rw [hlen] at hlt
        rw [segLimit_eq]
        exact_mod_cast hlt
      refine ⟨digitValue chunk :: lo, digits_cons.mpr ⟨⟨by positivity, hchunk⟩, hlo⟩, ?_, ?_⟩
      · rw [leadingChunk_append hfront hlen, digitValue_append, hlen, value_cons, List.length_cons,
          pow_succ]
        push_cast
        rw [← hval, ← segLimit_eq]
        ring
      · rw [digitText_append, integerSegs_chunk nums sign fuel
          (.inl (by rw [digitText_length, hlen])) (digitText_ne_nil hcne)
          (strtoll_digitText hc hcne), hrun, leadingChunk_append hfront hlen,
          if_neg (digitText_ne_nil hfront)]
        rfl

/-- **What is read.**  The sign is lost on a leading chunk of zeros. -/
theorem integerC_isInt {sign : Text} {neg : Bool} (hs : IsSign sign neg) {ds : List Nat}
    (h : AllDigits ds) (hne : ds ≠ []) (reqExact : Bool) :
    ∃ bn, integerC (sign ++ digitText ds) reqExact = .ok bn ∧
      IsInt bn (if digitValue (leadingChunk ds) = 0 then (digitValue ds : Int)
        else signedValue neg ds) := by
  obtain ⟨lo, hlo, hval, hrun⟩ := integerSegs_digits (sign ++ digitText ds)
    (if neg then -1 else 1) h hne (Nat.lt_succ_self _)
  rw [integerC_digits hs h hne, hrun]
  refine ⟨integer (dropLeadingZeros (lo ++ [_])), rfl, ?_⟩
  have hlead : (digitValue (leadingChunk ds) : Int) < segLimit := by
    have hall : AllDigits (leadingChunk ds) := fun d hd => h d (List.mem_of_mem_take hd)
    have hlen : (leadingChunk ds).length ≤ dpw := by
      have hmod : (ds.length - 1) % dpw < dpw := Nat.mod_lt _ (by decide)
      rw [leadingChunk, List.length_take]
      omega
    have hlt := lt_of_lt_of_le (digitValue_lt hall) (Nat.pow_le_pow_right (by decide) hlen)
    rw [segLimit_eq]
    exact_mod_cast hlt
  by_cases h0 : digitValue (leadingChunk ds) = 0
  · rw [if_pos h0, h0, Nat.cast_zero, zero_mul]
    rw [h0, Nat.cast_zero] at hval
    have hdigits : Digits segLimit (lo ++ [0]) :=
      digits_append.mpr ⟨hlo, digits_cons.mpr ⟨by decide, digits_nil _⟩⟩
    obtain ⟨hmag, hmagv⟩ := dropLeadingZeros_spec hdigits (by simp)
    have hint := IsInt.of_magnitude hmag
    rw [hmag.toInt_eq, hmagv, value_append, value_cons, value_nil, mul_zero, add_zero, hval] at hint
    exact hint
  · rw [if_neg h0]
    have hsign : ((digitValue (leadingChunk ds) : Int) * if neg then -1 else 1) =
        if neg then - (digitValue (leadingChunk ds) : Int) else digitValue (leadingChunk ds) := by
      cases neg <;> simp
    rw [hsign, dropLeadingZeros_append (fun _ => by split <;> omega)]
    refine ⟨rfl, normal_append.mpr ⟨hlo, by split <;> omega, fun _ => by split <;> omega⟩, ?_⟩
    show toInt (lo ++ [_]) = _
    rw [toInt_append, signedValue, ← hval]
    cases neg
    · rw [if_neg (by simp)]
      rfl
    · rw [if_pos (by simp only [if_true]; omega)]
      simp only [if_true, neg_neg]

/-! ## Exponents -/

theorem int64Value_spec {bn : Bignum} {z : Int} (h : IsInt bn z) :
    (|z| ≤ intmaxMax ∧ int64Value bn = .ok z) ∨
      (intmaxMax < |z| ∧ ∃ e, int64Value bn = .error e) := by
  -- A buffer that is large enough for the message.
  have hfits : CInt.int64.MessageFits ((tooLargeMessage CInt.int64.ctype bn).length + 1) bn :=
    CInt.messageFits_iff.mpr (Nat.lt_succ_self _)
  have hval : int64Value bn = _ :=
    (int64TValue_eq h hfits).symm.trans (cTypeValue_spec h _ "int64_t")
  rw [hval]
  by_cases hmax : |z| ≤ intmaxMax
  · exact .inl ⟨hmax, if_pos hmax⟩
  · refine .inr ⟨not_le.mp hmax, ?_⟩
    rw [if_neg hmax]
    split
    · exact ⟨_, rfl⟩
    · exact ⟨_, rfl⟩

/-- An exponent `z` is read: it is added to the one counted so far if it is an `int32_t`, and
refused otherwise. -/
def ExponentRead (exp z : Int) (res : Result Int) : Prop :=
  if beMin ≤ z ∧ z ≤ beMax then res = addExponents exp z else ∃ e, res = .error e

theorem addExponents_error {z : Int} (hz : ¬ (beMin ≤ z ∧ z ≤ beMax)) (exp : Int) :
    ∃ e, addExponents exp z = .error e := by
  have hmin : beMin = -2147483648 := rfl
  have hmax : beMax = 2147483647 := rfl
  unfold addExponents
  by_cases hpos : z > 0
  · rw [if_pos hpos, if_pos (by omega)]
    exact ⟨_, rfl⟩
  · rw [if_neg hpos, if_pos (by omega), if_pos (by omega)]
    exact ⟨_, rfl⟩

/-- An exponent is not added or refused as its opposite is. -/
theorem addExponents_neg_ne {v : Int} (hv : 0 < v) (exp : Int) :
    addExponents exp v ≠ addExponents exp (- v) := by
  have hunder : exponentOverflow ≠ .bignumConversionError "exponent underflow" := by
    simp [exponentOverflow]
  unfold addExponents
  rw [if_pos hv, if_neg (show ¬ - v > 0 by omega), if_pos (show - v < 0 by omega)]
  split_ifs <;> simp [hunder]
  omega

/-- The exponent is the number that is read. -/
theorem readExponent_isInt {c : Char} (hc : expChar c = true) {s : Text} {bn : Bignum} {z : Int}
    (hread : integerC s true = .ok bn) (h : IsInt bn z) (exp : Int) :
    (|z| ≤ intmaxMax → readExponent exp (c :: s) = addExponents exp z) ∧
      ExponentRead exp z (readExponent exp (c :: s)) := by
  have hrun : readExponent exp (c :: s) = int64Value bn >>= addExponents exp := by
    rw [readExponent, if_pos hc, hread]
    rfl
  have hmin : beMin = -2147483648 := rfl
  have hmax : beMax = 2147483647 := rfl
  have hintmax : intmaxMax = 9223372036854775807 := rfl
  rw [hrun, ExponentRead]
  rcases int64Value_spec h with ⟨-, hval⟩ | ⟨hlarge, e, hval⟩
  · rw [hval]
    refine ⟨fun _ => rfl, ?_⟩
    split
    · rfl
    · exact addExponents_error (by assumption) exp
  · rw [hval]
    refine ⟨fun hle => absurd hle (not_le.mpr hlarge), ?_⟩
    rw [if_neg]
    · exact ⟨e, rfl⟩
    · rintro ⟨hlo, hhi⟩
      exact absurd (abs_le.mpr ⟨by omega, by omega⟩ : |z| ≤ intmaxMax) (not_le.mpr hlarge)

/-- The sign is not lost: there is no minus, or something for it to be put on, or nothing to put
it on in the whole number. -/
def SignKept (neg : Bool) (ds : List Nat) : Prop :=
  neg = false ∨ digitValue (leadingChunk ds) ≠ 0 ∨ digitValue ds = 0

theorem IsInt.unique {bn : Bignum} {m n : Int} (hm : IsInt bn m) (hn : IsInt bn n) : m = n :=
  hm.toInt_eq.symm.trans hn.toInt_eq

/-- **Reading digits.**  A sign and digits are read as the number they denote exactly where the
sign is not lost, and so is the exponent of a real, or the number is too large for one anyway. -/
theorem digits_read {sign : Text} {neg : Bool} (hs : IsSign sign neg) {ds : List Nat}
    (h : AllDigits ds) (hne : ds ≠ []) :
    (∀ reqExact, (∃ bn, integerC (sign ++ digitText ds) reqExact = .ok bn ∧
      IsInt bn (signedValue neg ds)) ↔ SignKept neg ds) ∧
    ∀ c, expChar c = true → ∀ exp,
      (ExponentRead exp (signedValue neg ds) (readExponent exp (c :: (sign ++ digitText ds))) ↔
        SignKept neg ds ∨ 2147483648 < digitValue ds) := by
  have hexact : SignKept neg ds → (if digitValue (leadingChunk ds) = 0 then (digitValue ds : Int)
      else signedValue neg ds) = signedValue neg ds := by
    intro hkept
    split
    · rename_i h0
      rcases hkept with rfl | hlead | hzero
      · rfl
      · exact absurd h0 hlead
      · simp [signedValue, hzero]
    · rfl
  have hlost : ¬ SignKept neg ds → neg = true ∧ digitValue (leadingChunk ds) = 0 ∧
      0 < digitValue ds := by
    intro hkept
    simp only [SignKept, not_or, not_not, Bool.not_eq_false] at hkept
    exact ⟨hkept.1, hkept.2.1, Nat.pos_of_ne_zero hkept.2.2⟩
  refine ⟨fun reqExact => ?_, fun c hc exp => ?_⟩
  · obtain ⟨bn, hrun, hint⟩ := integerC_isInt hs h hne reqExact
    constructor
    · rintro ⟨bn', hrun', hint'⟩
      by_contra hkept
      obtain ⟨rfl, h0, hpos⟩ := hlost hkept
      rw [hrun] at hrun'
      cases hrun'
      have heq := hint.unique hint'
      rw [if_pos h0, signedValue, if_pos rfl] at heq
      omega
    · exact fun hkept => ⟨bn, hrun, hexact hkept ▸ hint⟩
  · obtain ⟨bn, hrun, hint⟩ := integerC_isInt hs h hne true
    have hmin : beMin = -2147483648 := rfl
    have hmax : beMax = 2147483647 := rfl
    have hintmax : intmaxMax = 9223372036854775807 := rfl
    obtain ⟨hadd, hexp⟩ := readExponent_isInt hc hrun hint exp
    by_cases hkept : SignKept neg ds
    · rw [hexact hkept] at hexp
      exact ⟨fun _ => .inl hkept, fun _ => hexp⟩
    · obtain ⟨rfl, h0, hpos⟩ := hlost hkept
      rw [if_pos h0] at hadd hexp
      rw [signedValue, if_pos rfl]
      by_cases hlarge : 2147483648 < digitValue ds
      · refine ⟨fun _ => .inr hlarge, fun _ => ?_⟩
        rw [ExponentRead, if_neg (by omega)] at hexp ⊢
        exact hexp
      · refine ⟨fun hopposite => ?_, fun hor => absurd hor (by simp [hkept, hlarge])⟩
        rw [ExponentRead, if_pos (by omega),
          hadd (abs_le.mpr ⟨by omega, by omega⟩)] at hopposite
        exact absurd hopposite (addExponents_neg_ne (by omega) exp)

/-- -00123, and as an exponent. -/
theorem digits_read_zeros :
    (∃ bn, integerC "-00123".toList false = .ok bn ∧ IsInt bn (-123)) ∧
      readExponent 0 "e-00123".toList = .ok (-123) := by
  have hkept : SignKept true [0, 0, 1, 2, 3] := .inr (.inl (by decide))
  obtain ⟨hinteger, hexponent⟩ := @digits_read ['-'] true .minus [0, 0, 1, 2, 3]
    (by simp [AllDigits]) (by decide)
  refine ⟨(hinteger false).mpr hkept, ?_⟩
  have hread := (hexponent 'e' (by decide) 0).mpr (.inl hkept)
  rw [ExponentRead, if_pos (by decide)] at hread
  exact hread

/-- The sign of -000000000000000000123456789012345678 is lost, and that of the exponent in
1e-0000000000000000001. -/
theorem digits_read_lost :
    integerC "-000000000000000000123456789012345678".toList false =
        .ok (integer [123456789012345678]) ∧
      (¬ ∃ bn, integerC "-000000000000000000123456789012345678".toList false = .ok bn ∧
        IsInt bn (-123456789012345678)) ∧
      readExponent 0 "e-0000000000000000001".toList = .ok 1 ∧
      ¬ ExponentRead 0 (-1) (readExponent 0 "e-0000000000000000001".toList) := by
  have hinteger : integerC "-000000000000000000123456789012345678".toList false =
      .ok (integer [123456789012345678]) := by decide +kernel
  have hexponent : readExponent 0 "e-0000000000000000001".toList = .ok 1 := by decide +kernel
  refine ⟨hinteger, ?_, hexponent, ?_⟩
  · rintro ⟨bn, hrun, hint⟩
    rw [hinteger] at hrun
    cases hrun
    exact absurd hint.toInt_eq (by decide)
  · rw [hexponent, ExponentRead, if_pos (by decide)]
    decide

end Bignum

end Idio
