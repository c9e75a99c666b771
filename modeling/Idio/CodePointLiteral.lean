/-
  CodePointLiteral.lean --- how `#U+hhhh` is read.

  The digits are read as a number, of which 32 bits are kept, and the code point is
  checked against the last one there is.  Surrogates are code points to the reader:
  it is for what writes characters to tell them apart.

  A bignum is first made a `uint64_t`: from 19 * 10 ^ 18 on that is refused.
-/
import Idio.Bitset.ReadItems
import Idio.String.Encode

set_option autoImplicit false

namespace Idio.CodePointLiteral

open Bignum

/-! ## The source -/

/-- `idio_read_error_unicode_decode` -/
def decodeError {α : Type} (msg : String) : Result α := .error (.readErrorParse ("U+hhhh decode: " ++ msg))

/-- `cp`, which is a `uint32_t`. -/
def codePoint : Num → Result Nat
  | .fixnum v => .ok (v % 4294967296).toNat
  | .bignum bn => do pure ((← uint64Value bn) % 4294967296)

/-- `idio_read_unicode`, on the text after `#U`: the code point, and how much of the text
was read. -/
def readUnicode : Text → Result (Nat × Nat)
  | [] => decodeError "EOF"
  | c :: s =>
      if c ≠ '+' then decodeError "U not followed by +"
      else do
        let (n, tell) ← readBignumRadix 'x' 16 s
        let cp ← codePoint n
        if validCodePoint cp = false then decodeError "code point too big"
        else pure (cp, tell + 1)

/-! ## Digits -/

/-- The characters of hexadecimal digits. -/
def hexDigitChars : Text := "0123456789abcdefABCDEF".toList

/-- The number a hexadecimal digit stands for. -/
def hexDigitValue (c : Char) : Nat :=
  if c.toNat < 0x41 then c.toNat - 0x30
  else if c.toNat < 0x61 then c.toNat - 0x41 + 10
  else c.toNat - 0x61 + 10

/-- The number that digits write. -/
def hexValue (ds : Text) : Nat := ds.foldl (fun n c => n * 16 + hexDigitValue c) 0

/-- The text ends, or goes on with a separator. -/
def Stops (rest : Text) : Prop := ∀ c, rest.head? = some c → isSeparator c = true

/-- The first number that is not made a `uint64_t`. -/
def uint64Limit : Nat := 19000000000000000000

/-- The number does not fit in 32 bits, and what is kept of it is a code point. -/
def Narrowed (n : Nat) : Prop := 4294967296 ≤ n ∧ n < uint64Limit ∧ n % 4294967296 ≤ 0x10FFFF

theorem hexDigit_read : ∀ c ∈ hexDigitChars, isSeparator c = false ∧ digitIndex c = hexDigitValue c ∧
    hexDigitValue c < 16 ∧ c ≠ '-' ∧ c ≠ '+' := by
  intro c hc
  -- Not by `decide` of the statement, which goes through all characters.
  have hall : hexDigitChars.all (fun c => decide (isSeparator c = false ∧
      digitIndex c = hexDigitValue c ∧ hexDigitValue c < 16 ∧ c ≠ '-' ∧ c ≠ '+')) = true := by
    decide
  exact of_decide_eq_true (List.all_eq_true.mp hall c hc)

/-- The digits are read as the number that they write. -/
theorem readBignumRadix_digits {ds rest : Text} (hds : ∀ c ∈ ds, c ∈ hexDigitChars) (hne : ds ≠ [])
    (hrest : Stops rest) :
    ∃ bn, readBignumRadix 'x' 16 (ds ++ rest) = .ok (toFixnum bn, ds.length) ∧
      IsInt bn (hexValue ds) := by
  have hdigits : ∀ c ∈ ds, isSeparator c = false ∧ digitIndex c < 16 := by
    intro c hc
    obtain ⟨hsep, hindex, hlt, -⟩ := hexDigit_read c (hds c hc)
    exact ⟨hsep, by rw [hindex]; exact hlt⟩
  obtain ⟨bn, hrun, hint⟩ := @radixDigits_spec 'x' 16 (by decide) ds rest hdigits hrest
    (integerIntmaxT (0 : Nat)) 0 (integerIntmaxT_isInt (by decide) (by decide)) 0
  have hvalue : ds.foldl (fun acc c => acc * 16 + digitIndex c) 0 = hexValue ds := by
    rw [hexValue]
    refine List.foldl_ext _ _ 0 fun n c hc => ?_
    rw [(hexDigit_read c (hds c hc)).2.1]
  obtain ⟨c, s, rfl⟩ := List.exists_cons_of_ne_nil hne
  obtain ⟨-, -, -, hminus, hplus⟩ := hexDigit_read c (hds c List.mem_cons_self)
  refine ⟨bn, ?_, by rw [hvalue] at hint; exact hint⟩
  rw [readBignumRadix, List.cons_append, radixSign_of_digit hminus hplus]
  show (radixDigits 'x' 16 ((c :: s) ++ rest) (integerIntmaxT (0 : Nat)) 0 >>= _) = _
  rw [hrun]
  simp

/-! ## Narrowing -/

/-- A bignum that is no fixnum, as a `uint64_t`. -/
theorem uint64Value_of_large {bn : Bignum} {n : Nat} (h : IsInt bn n) (hbig : fixnumMax < n) :
    if n < uint64Limit then uint64Value bn = .ok (n % 18446744073709551616)
    else ∃ msg, uint64Value bn = .error (.bignumConversionError msg) := by
  have hL : segLimit = 1000000000000000000 := rfl
  have hnot : ¬ InFixnumRange (n : Int) := fun hr => by
    have := hr.2
    omega
  have hfix := toFixnum_isInt h
  rw [if_neg hnot] at hfix
  have hn := h.toInt_eq
  obtain ⟨lo, t, hs, hlo, ht, hlead⟩ := h.normal.split
  have hn' := hn
  rw [hs, toInt_append] at hn'
  have hval : uint64Value bn =
      if bn.sig.length > 1 then
        if bn.sig.length < int64Words ∨ bn.sig.length = int64Words ∧ t ≤ uint64First ∧ t ≥ 0 then
          pure (sizeT (Bignum.toInt bn.sig))
        else .error (.bignumConversionError (String.ofList (asString bn) ++
          " is too large for uint64_t (18446744073709551615)"))
      else pure (sizeT t) := by
    rw [uint64Value, integerArgument, h.isInteger]
    show (if bn.sig.length > 1 then _ else _) = _
    rw [hs, bsaTop_append, ← hs]
    simp only [hfix]
  have hsize : sizeT (Bignum.toInt bn.sig) = n % 18446744073709551616 := by
    rw [hn]
    rfl
  simp only [fixnumMax] at hbig
  rw [hval, hsize, hs]
  simp only [List.length_append, List.length_singleton, int64Words, uint64First, uint64Limit]
  rcases lo with _ | ⟨l, _ | ⟨l', rest⟩⟩
  · have : (n : Int) = t := by simpa using hn'.symm
    omega
  · have hl := (Positional.digits_cons.mp hlo).1
    simp only [Positional.value_cons, Positional.value_nil, mul_zero, add_zero,
      List.length_singleton, pow_one] at hn'
    rw [hL] at hn' hl
    have ht0 : 0 ≤ t := by
      by_contra hneg
      rw [if_pos (by omega)] at hn'
      omega
    rw [if_neg (by omega)] at hn'
    by_cases hlt : n < 19000000000000000000
    · rw [if_pos hlt, if_pos (by simp), if_pos (.inr ⟨rfl, by omega, ht0⟩)]
      rfl
    · rw [if_neg hlt, if_pos (by simp), if_neg (by simp; omega)]
      exact ⟨_, rfl⟩
  · have hv := Positional.value_nonneg segLimit_pos.le hlo
    have hpow : segLimit ^ 2 ≤ segLimit ^ (l :: l' :: rest).length :=
      pow_le_pow_right₀ (by decide) (by simp)
    have hsq : segLimit ^ 2 = 1000000000000000000000000000000000000 := by decide
    have ht0 : t ≠ 0 := hlead (by simp)
    have hlarge : ¬ n < 19000000000000000000 := by
      intro hlt
      split at hn'
      · have := mul_le_mul_of_nonneg_left (by omega : 1 ≤ - t)
          (by omega : 0 ≤ segLimit ^ (l :: l' :: rest).length)
        omega
      · have := mul_le_mul_of_nonneg_left (by omega : 1 ≤ t)
          (by omega : 0 ≤ segLimit ^ (l :: l' :: rest).length)
        omega
    rw [if_neg hlarge, if_pos (by simp), if_neg (by simp)]
    exact ⟨_, rfl⟩

/-- What is kept of a number. -/
theorem codePoint_spec {bn : Bignum} {n : Nat} (h : IsInt bn n) :
    if n < uint64Limit then codePoint (toFixnum bn) = .ok (n % 4294967296)
    else ∃ msg, codePoint (toFixnum bn) = .error (.bignumConversionError msg) := by
  rw [toFixnum_isInt h]
  by_cases hrange : InFixnumRange (n : Int)
  · have hle := hrange.2
    simp only [fixnumMax] at hle
    rw [if_pos hrange, if_pos (by rw [uint64Limit]; omega), codePoint]
    rfl
  · have hbig : fixnumMax < n := by
      by_contra hle
      exact hrange ⟨by simp only [fixnumMin]; omega, by omega⟩
    have hval := uint64Value_of_large h hbig
    rw [if_neg hrange, codePoint]
    split
    · rename_i hlt
      rw [if_pos hlt] at hval
      rw [hval, ok_bind]
      show Except.ok _ = _
      congr 1
      exact Nat.mod_mod_of_dvd n (by decide)
    · rename_i hge
      rw [if_neg hge] at hval
      obtain ⟨msg, hmsg⟩ := hval
      exact ⟨msg, by rw [hmsg, error_bind]⟩

/-- The whole reading of digits. -/
theorem readUnicode_digits {ds rest : Text} (hds : ∀ c ∈ ds, c ∈ hexDigitChars) (hne : ds ≠ [])
    (hrest : Stops rest) :
    if hexValue ds < uint64Limit then
      readUnicode ('+' :: (ds ++ rest)) =
        if hexValue ds % 4294967296 ≤ 0x10FFFF then .ok (hexValue ds % 4294967296, ds.length + 1)
        else decodeError "code point too big"
    else ∃ msg, readUnicode ('+' :: (ds ++ rest)) = .error (.bignumConversionError msg) := by
  obtain ⟨bn, hrun, hint⟩ := readBignumRadix_digits hds hne hrest
  have hcp := codePoint_spec hint
  have hread : readUnicode ('+' :: (ds ++ rest)) = codePoint (toFixnum bn) >>= fun cp =>
      if validCodePoint cp = false then decodeError "code point too big"
      else pure (cp, ds.length + 1) := by
    rw [readUnicode, if_neg (not_not.mpr rfl), hrun, ok_bind]
  rw [hread]
  split
  · rename_i hlt
    rw [if_pos hlt] at hcp
    rw [hcp, ok_bind, validCodePoint]
    by_cases hle : hexValue ds % 4294967296 ≤ 0x10FFFF
    · rw [decide_eq_true hle, if_neg (by decide), if_pos hle]
      rfl
    · rw [decide_eq_false hle, if_pos rfl, if_neg hle]
  · rename_i hge
    rw [if_neg hge] at hcp
    obtain ⟨msg, hmsg⟩ := hcp
    exact ⟨msg, by rw [hmsg, error_bind]⟩

/-- No digits. -/
theorem readUnicode_no_digits {rest : Text} (hrest : Stops rest) :
    ∃ msg, readUnicode ('+' :: rest) = .error (.readErrorParse msg) := by
  obtain ⟨bn, hrun, -⟩ := @radixDigits_spec 'x' 16 (by decide) [] rest (by simp) hrest
    (integerIntmaxT (0 : Nat)) 0 (integerIntmaxT_isInt (by decide) (by decide)) 0
  have hsign : radixSign rest = (false, 0, rest) := by
    cases rest with
    | nil => rfl
    | cons c s =>
      have hc : isSeparator c = true := hrest c rfl
      refine radixSign_of_digit ?_ ?_
      · rintro rfl
        exact absurd hc (by decide)
      · rintro rfl
        exact absurd hc (by decide)
  rw [List.nil_append] at hrun
  have hread : readBignumRadix 'x' 16 rest =
      .error (.readErrorParse "bignum: no digits after bignum base #x") := by
    rw [readBignumRadix, hsign]
    show (radixDigits 'x' 16 rest (integerIntmaxT (0 : Nat)) 0 >>= _) = _
    rw [hrun, ok_bind]
    rfl
  exact ⟨_, by rw [readUnicode, if_neg (not_not.mpr rfl), hread, error_bind]⟩

/-- **Code points.**  Digits that write a number up to `10FFFF` are read as that code point.  Of
the other numbers those that are narrowed to a code point are left out; the rest are refused, as
code points or, if they do not fit, as they are made a `uint64_t`. -/
theorem code_point_literals (ds rest : Text) (hds : ∀ c ∈ ds, c ∈ hexDigitChars) (hrest : Stops rest) :
    (ds = [] → ∃ msg, readUnicode ('+' :: (ds ++ rest)) = .error (.readErrorParse msg)) ∧
    (ds ≠ [] → hexValue ds ≤ 0x10FFFF →
      readUnicode ('+' :: (ds ++ rest)) = .ok (hexValue ds, ds.length + 1)) ∧
    (0x10FFFF < hexValue ds → hexValue ds < uint64Limit → ¬ Narrowed (hexValue ds) →
      readUnicode ('+' :: (ds ++ rest)) = decodeError "code point too big") ∧
    (uint64Limit ≤ hexValue ds →
      ∃ msg, readUnicode ('+' :: (ds ++ rest)) = .error (.bignumConversionError msg)) := by
  have hne_of : 0x10FFFF < hexValue ds → ds ≠ [] := by
    rintro hgt rfl
    exact absurd hgt (by decide)
  refine ⟨fun h => ?_, fun hne hle => ?_, fun hgt hlt hnarrow => ?_, fun hge => ?_⟩
  · rw [h]
    exact readUnicode_no_digits hrest
  · have hread := readUnicode_digits hds hne hrest
    rwa [if_pos (by rw [uint64Limit]; omega), Nat.mod_eq_of_lt (by omega), if_pos hle] at hread
  · have hread := readUnicode_digits hds (hne_of hgt) hrest
    have hbig : ¬ hexValue ds % 4294967296 ≤ 0x10FFFF := by
      intro hle
      by_cases h32 : 4294967296 ≤ hexValue ds
      · exact hnarrow ⟨h32, hlt, hle⟩
      · omega
    rwa [if_pos hlt, if_neg hbig] at hread
  · have hgt : 0x10FFFF < hexValue ds := Nat.lt_of_lt_of_le (by decide) hge
    have hread := readUnicode_digits hds (hne_of hgt) hrest
    rwa [if_neg (Nat.not_lt.mpr hge)] at hread

theorem code_point_literals_A :
    readUnicode ('+' :: (['4', '1'] ++ [' '])) = .ok (0x41, 3) :=
  (code_point_literals ['4', '1'] [' ']
    (List.forall_mem_cons.mpr ⟨by decide, List.forall_mem_singleton.mpr (by decide)⟩)
    (fun c hc => by cases hc; rfl)).2.1 (by decide) (by decide)

/-- A surrogate is read. -/
theorem surrogate_read : readUnicode "+D800".toList = .ok (0xD800, 5) := rfl

end Idio.CodePointLiteral
