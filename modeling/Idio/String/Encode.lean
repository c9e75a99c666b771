/-
  String/Encode.lean --- the bytes of strings.

  `idio_utf8_string` goes over the units of a string twice, too: a first pass finds how
  many bytes there are to allocate, a second writes them.  With escapes some units are
  written as two characters and some as four, with quotes there is a prefix that says
  what kind of string it is.  The first pass counts the bytes of a unit as if it were a
  code point also where the second writes it as it is.

  `string->octet-string` takes the bytes without escapes and quotes, but with the
  precision of a conversion that is under way; `octet-string->string` decodes them.
  The encoder knows no surrogates, and the decoder knows nothing else.
-/
import Idio.String.Constant

set_option autoImplicit false

namespace Idio

/-! ## Code points -/

/-- `idio_unicode_valid_code_point`. -/
def validCodePoint (cp : Nat) : Bool := decide (cp ≤ 0x10FFFF)

/-- `%04X`. -/
def hex04 (c : Nat) : String :=
  String.ofList (((Nat.toDigits 16 c).map Char.toUpper).leftpad 4 '0')

/-- The bytes of a code point, in `idio_utf8_string` and in `idio_utf8_code_point`. -/
def codePointBytes (c : Nat) : List Nat :=
  if c ≥ 0x10000 then
    [0xf0 ||| ((c &&& (0x07 <<< 18)) >>> 18), 0x80 ||| ((c &&& (0x3f <<< 12)) >>> 12),
      0x80 ||| ((c &&& (0x3f <<< 6)) >>> 6), 0x80 ||| ((c &&& (0x3f <<< 0)) >>> 0)]
  else if c ≥ 0x0800 then
    [0xe0 ||| ((c &&& (0x0f <<< 12)) >>> 12), 0x80 ||| ((c &&& (0x3f <<< 6)) >>> 6),
      0x80 ||| ((c &&& (0x3f <<< 0)) >>> 0)]
  else if c ≥ 0x0080 then
    [0xc0 ||| ((c &&& (0x1f <<< 6)) >>> 6), 0x80 ||| ((c &&& (0x3f <<< 0)) >>> 0)]
  else [c &&& 0x7f]

/-- `idio_utf8_code_point` -/
def utf8CodePoint (c : Nat) : Result (List Nat) :=
  if validCodePoint c then .ok (codePointBytes c)
  else .error (.paramValue "idio_utf8_code_point" "Unicode code point" ("U+" ++ hex04 c ++ " is invalid"))

/-! ## `idio_utf8_string` -/

/-- `is_octet` -/
def StringFlags.isOctet (flags : StringFlags) : Bool := decide (flags = .octet)

/-- `is_pathname` -/
def StringFlags.isPathname : StringFlags → Bool
  | .pathname | .fdPathname | .fifoPathname => true
  | .oneByte | .twoByte | .fourByte | .octet => false

section Utf8String

-- `isprint` depends on the locale
variable (isprint : Nat → Bool) (flags : StringFlags)

/-- What a unit adds to `n` in the first pass. -/
def unitSize (escapes : Bool) (c : Nat) : Nat :=
  (if c ≥ 0x10000 then 4 else if c ≥ 0x0800 then 3 else if c ≥ 0x0080 then 2 else 1) +
  if escapes then
    -- `\a \b \e \f \n \r \t \v " \\`
    if c ∈ [7, 8, 27, 12, 10, 13, 9, 11, 0x22, 0x5c] then 1
    else if (flags.isPathname || flags.isOctet) && !isprint c then 3
    else if c < 0x20 then 3
    else 0
  else 0

/-- `bytes` -/
def utf8Size (escapes quoted : Bool) (cs : List Nat) : Nat :=
  let n := cs.foldl (fun n c => n + unitSize isprint flags escapes c) 0
  n + 1 +
  if quoted then
    2 + (if flags.isPathname || flags.isOctet then 2 else 0) +
      (if flags = .fifoPathname then 1 else 0)
  else 0

/-- `ec` -/
def escapeCharacter (c : Nat) : Option Nat :=
  match c with
  | 7 => some 0x61
  | 8 => some 0x62
  | 27 => some 0x65
  | 12 => some 0x66
  | 10 => some 0x6e
  | 13 => some 0x72
  | 9 => some 0x74
  | 11 => some 0x76
  | 0x22 => some 0x22
  | 0x5c => some 0x5c
  | _ => none

/-- `idio_HEX_digits` -/
def HEXDigits : List Nat :=
  [0x30, 0x31, 0x32, 0x33, 0x34, 0x35, 0x36, 0x37, 0x38, 0x39, 0x41, 0x42, 0x43, 0x44, 0x45, 0x46]

/-- What the second pass writes for a unit. -/
def unitText (escapes : Bool) (c : Nat) : Result (List Nat) :=
  match if escapes then escapeCharacter c else none with
  | some ec => .ok [0x5c, ec]
  | none =>
      if escapes && (((flags.isPathname || flags.isOctet) && !isprint c) || decide (c < 0x20)) then
        .ok [0x5c, 0x78, HEXDigits.getD ((c &&& 0xf0) >>> 4) 0, HEXDigits.getD (c &&& 0x0f) 0]
      else if flags.isPathname || flags.isOctet then .ok [c]
      else if validCodePoint c then .ok (codePointBytes c)
      else .error (.paramValue "idio_utf8_string" "Unicode code point" ("U+" ++ hex04 c ++ " is invalid"))

/-- What is written before the units: `%P`, `%PF` or `%B`, and a quote. -/
def openText (quoted : Bool) : List Nat :=
  if quoted then
    (if flags.isPathname then
      [0x25, 0x50] ++ if flags = .fifoPathname then [0x46] else []
    else if flags.isOctet then [0x25, 0x42]
    else []) ++ [0x22]
  else []

/-- The second pass over the units: `r` and `n`. -/
def writeUnits (escapes : Bool) (r : List Nat) (n : Nat) : List Nat → Result (List Nat × Nat)
  | [] => .ok (r, n)
  | c :: cs => do
      let text ← unitText isprint flags escapes c
      writeUnits escapes (← putUnits .octet r n text) (n + text.length) cs

/-- `idio_utf8_string`, once it has the units to print: the allocation and `*sizep`. -/
def utf8Units (escapes quoted : Bool) (cs : List Nat) : Result (List Nat × Nat) := do
  let r := gcAlloc .octet (utf8Size isprint flags escapes quoted cs)
  let pre := openText flags quoted
  let r ← putUnits .octet r 0 pre
  let (r, n) ← writeUnits isprint flags escapes r pre.length cs
  let post := if quoted then [0x22] else []
  let r ← putUnits .octet r n post
  let n := n + post.length
  let r ← putUnit .octet r n 0
  return (r, n)

end Utf8String

/-- The value of `idio-print-conversion-precision`. -/
inductive ConversionPrecision where
  /-- `#f` -/
  | none
  | fixnum (i : Int)
  | other
  deriving DecidableEq, Repr

/-- `prec`, an `int` -/
def ConversionPrecision.prec : ConversionPrecision → Result Int
  | .none => .ok 0
  | .fixnum i => .ok (i.bmod (2 ^ 32))
  | .other => .error (.paramType "fixnum")

/-- The units that a precision leaves. -/
def precede (prec : Int) (cs : List Nat) : List Nat :=
  if prec > 0 ∧ prec < cs.length then cs.take prec.toNat else cs

/-- `idio_utf8_string` -/
def Strings.utf8String (isprint : Nat → Bool) (ipcp : ConversionPrecision) (st : Strings) (str : Nat)
    (escapes quoted usePrec : Bool) : Result (List Nat × Nat) := do
  let prec ← (if usePrec then ipcp.prec else .ok 0)
  let sp ← st.span str
  let cs ← st.string2list str
  utf8Units isprint sp.flags escapes quoted (precede prec cs)

/-! ## `string->octet-string` and `octet-string->string` -/

/-- `idio_octet_string_C_len` -/
def octetStringCLen (s_C : List Nat) (blen : Nat) : Result StringS := do
  let s ← putUnits .octet (gcAlloc .octet (blen + 1)) 0 (s_C.take blen)
  let s ← putUnit .octet s blen 0
  return ⟨blen, blen, .octet, s⟩

/-- `string->octet-string`, by `idio_string_as_C` -/
def Strings.string2octetString (isprint : Nat → Bool) (ipcp : ConversionPrecision) (st : Strings)
    (s : Nat) : Result (Nat × Strings) := do
  let (s_C, size) ← st.utf8String isprint ipcp s false false true
  let so ← octetStringCLen s_C size
  return st.add (.string so)

/-- `octet-string->string` -/
def Strings.octetString2string (st : Strings) (s : Nat) : Result (Nat × Strings) := do
  let sp ← st.span s
  if sp.flags.isOctet then
    let s_C ← st.string2list s
    let so ← stringCLen (s_C.map UInt8.ofNat)
    return st.add (.string so)
  else .error (.paramType "octet_string")

/-! ## Bytes -/

/-- A field of a code point below the bits that mark the byte. -/
theorem field_eq {hi j k : Nat} (h : hi % 2 ^ j = 0) (c : Nat) :
    hi ||| ((c &&& ((2 ^ j - 1) <<< k)) >>> k) = c / 2 ^ k % 2 ^ j + hi := by
  obtain ⟨a, rfl⟩ := Nat.dvd_of_mod_eq_zero h
  rw [Nat.shiftRight_and_distrib, Nat.shiftLeft_shiftRight, Nat.and_two_pow_sub_one_eq_mod,
    Nat.shiftRight_eq_div_pow, ← Nat.two_pow_add_eq_or_of_lt (Nat.mod_lt _ (Nat.two_pow_pos j)),
    Nat.add_comm]

/-- The bytes of a code point as numbers. -/
theorem codePointBytes_eq (c : Nat) :
    codePointBytes c =
      if c ≥ 0x10000 then
        [c / 2 ^ 18 % 8 + 0xf0, c / 2 ^ 12 % 64 + 0x80, c / 2 ^ 6 % 64 + 0x80, c % 64 + 0x80]
      else if c ≥ 0x0800 then [c / 2 ^ 12 % 16 + 0xe0, c / 2 ^ 6 % 64 + 0x80, c % 64 + 0x80]
      else if c ≥ 0x0080 then [c / 2 ^ 6 % 32 + 0xc0, c % 64 + 0x80]
      else [c % 128] := by
  have h18 : 0xf0 ||| ((c &&& (0x07 <<< 18)) >>> 18) = c / 2 ^ 18 % 8 + 0xf0 :=
    field_eq (j := 3) (k := 18) rfl c
  have h12 : 0x80 ||| ((c &&& (0x3f <<< 12)) >>> 12) = c / 2 ^ 12 % 64 + 0x80 :=
    field_eq (j := 6) (k := 12) rfl c
  have h6 : 0x80 ||| ((c &&& (0x3f <<< 6)) >>> 6) = c / 2 ^ 6 % 64 + 0x80 :=
    field_eq (j := 6) (k := 6) rfl c
  have h0 : 0x80 ||| ((c &&& (0x3f <<< 0)) >>> 0) = c % 64 + 0x80 := by
    have h := @field_eq 0x80 6 0 rfl c
    rwa [Nat.pow_zero, Nat.div_one] at h
  have h3 : 0xe0 ||| ((c &&& (0x0f <<< 12)) >>> 12) = c / 2 ^ 12 % 16 + 0xe0 :=
    field_eq (j := 4) (k := 12) rfl c
  have h2 : 0xc0 ||| ((c &&& (0x1f <<< 6)) >>> 6) = c / 2 ^ 6 % 32 + 0xc0 :=
    field_eq (j := 5) (k := 6) rfl c
  have h1 : c &&& 0x7f = c % 128 := Nat.and_two_pow_sub_one_eq_mod c 7
  rw [codePointBytes, h18, h12, h6, h0, h3, h2, h1]

theorem codePointBytes_length (c : Nat) :
    (codePointBytes c).length =
      if c ≥ 0x10000 then 4 else if c ≥ 0x0800 then 3 else if c ≥ 0x0080 then 2 else 1 := by
  rw [codePointBytes]
  split_ifs <;> rfl

theorem codePointBytes_lt (c : Nat) : ∀ b ∈ codePointBytes c, b < 256 := by
  rw [codePointBytes_eq]
  split_ifs
  all_goals
    intro b hb
    simp only [List.mem_cons, List.not_mem_nil, or_false] at hb
    omega

/-- The bytes of a character are its encoding. -/
theorem codePointBytes_encode (c : Char) :
    (codePointBytes c.toNat).map UInt8.ofNat = String.utf8EncodeChar c := by
  have hc : c.val.toNat = c.toNat := rfl
  rw [codePointBytes_eq, String.utf8EncodeChar, hc]
  by_cases h1 : c.toNat ≤ 0x7f
  · rw [if_neg (by omega), if_neg (by omega), if_neg (by omega), if_pos h1,
      Nat.mod_eq_of_lt (by omega)]
    rfl
  rw [if_neg h1]
  by_cases h2 : c.toNat ≤ 0x7ff
  · rw [if_neg (by omega), if_neg (by omega), if_pos (by omega), if_pos h2]
    rfl
  rw [if_neg h2]
  by_cases h3 : c.toNat ≤ 0xffff
  · rw [if_neg (by omega), if_pos (by omega), if_pos h3]
    rfl
  · rw [if_pos (by omega), if_neg h3]
    rfl

/-! ## The two passes -/

section Passes

variable {isprint : Nat → Bool} {flags : StringFlags} {escapes quoted : Bool} {cs : List Nat}

/-- The two passes escape the same characters. -/
theorem escapeCharacter_isSome (c : Nat) :
    (escapeCharacter c).isSome ↔ c ∈ [7, 8, 27, 12, 10, 13, 9, 11, 0x22, 0x5c] := by
  unfold escapeCharacter
  split
  all_goals simp_all

/-- What the first pass counts for a unit without its escape. -/
theorem codePointBytes_length_le (escapes : Bool) (c : Nat) :
    (codePointBytes c).length ≤ unitSize isprint flags escapes c := by
  rw [codePointBytes_length, unitSize]
  exact Nat.le_add_right _ _

theorem codePointBytes_length_pos (c : Nat) : 1 ≤ (codePointBytes c).length := by
  rw [codePointBytes_length]
  split_ifs <;> decide

/-- The second pass writes no more for a unit than the first has counted. -/
theorem unitText_spec {c : Nat} (h : validCodePoint c) :
    ∃ t, unitText isprint flags escapes c = .ok t ∧ t.length ≤ unitSize isprint flags escapes c := by
  have hbytes := @codePointBytes_length_le isprint flags escapes c
  have hpos := codePointBytes_length_pos c
  rw [unitText]
  split
  · rename_i ec hec
    refine ⟨_, rfl, ?_⟩
    cases escapes with
    | false => cases hec
    | true =>
      have hmem := (escapeCharacter_isSome c).mp (Option.isSome_of_eq_some hec)
      rw [unitSize, ← codePointBytes_length, if_pos rfl, if_pos hmem]
      exact Nat.succ_le_succ hpos
  · rename_i hec
    split
    · rename_i hhex
      refine ⟨_, rfl, ?_⟩
      obtain ⟨rfl, hhex⟩ := Bool.and_eq_true_iff.mp hhex
      have hmem : c ∉ [7, 8, 27, 12, 10, 13, 9, 11, 0x22, 0x5c] := by
        intro hmem
        rw [← escapeCharacter_isSome, show escapeCharacter c = none from hec] at hmem
        cases hmem
      rw [unitSize, ← codePointBytes_length, if_pos rfl, if_neg hmem]
      have hthree : 3 ≤ if ((flags.isPathname || flags.isOctet) && !isprint c) = true then 3
          else if c < 0x20 then 3 else 0 := by
        rcases Bool.or_eq_true_iff.mp hhex with hprint | hlow
        · rw [if_pos hprint]
        · rw [if_pos (of_decide_eq_true hlow)]
          split <;> exact Nat.le_refl 3
      show 1 + 3 ≤ _
      exact Nat.add_le_add hpos hthree
    split
    · exact ⟨_, rfl, Nat.le_trans hpos hbytes⟩
    · exact ⟨_, rfl, hbytes⟩

theorem foldl_unitSize (n : Nat) :
    cs.foldl (fun n c => n + unitSize isprint flags escapes c) n =
      n + (cs.map (unitSize isprint flags escapes)).sum := by
  induction cs generalizing n with
  | nil => rfl
  | cons c cs ih => rw [List.foldl_cons, ih, List.map_cons, List.sum_cons, Nat.add_assoc]

/-- The texts of valid code points. -/
theorem mapM_unitText (h : ∀ c ∈ cs, validCodePoint c) :
    ∃ ts, cs.mapM (unitText isprint flags escapes) = .ok ts ∧
      ts.flatten.length ≤ (cs.map (unitSize isprint flags escapes)).sum := by
  induction cs with
  | nil => exact ⟨[], rfl, Nat.le_refl _⟩
  | cons c cs ih =>
    obtain ⟨hc, hcs⟩ := List.forall_mem_cons.mp h
    obtain ⟨t, ht, hlen⟩ := unitText_spec hc
    obtain ⟨ts, hts, hlens⟩ := ih hcs
    refine ⟨t :: ts, ?_, ?_⟩
    · rw [List.mapM_cons, ht, ok_bind, hts, ok_bind]
      rfl
    · rw [List.flatten_cons, List.length_append, List.map_cons, List.sum_cons]
      exact Nat.add_le_add hlen hlens

/-- The second pass writes the texts one after the other. -/
theorem writeUnits_eq {ts : List (List Nat)} (hts : cs.mapM (unitText isprint flags escapes) = .ok ts)
    (r : List Nat) (n : Nat) :
    writeUnits isprint flags escapes r n cs =
      (putUnits .octet r n ts.flatten).bind fun r => .ok (r, n + ts.flatten.length) := by
  induction cs generalizing ts r n with
  | nil =>
    cases hts
    rfl
  | cons c cs ih =>
    rw [List.mapM_cons] at hts
    obtain ⟨t, ht, hts⟩ := bind_eq_ok.mp hts
    obtain ⟨ts', hts', hts⟩ := bind_eq_ok.mp hts
    cases hts
    rw [writeUnits, ht, ok_bind, List.flatten_cons, putUnits_append, List.length_append,
      ← Nat.add_assoc]
    cases putUnits .octet r n t with
    | error e => rfl
    | ok r => exact ih hts' r _

/-- `r[n++] = '"'` with quotes. -/
def closeText (quoted : Bool) : List Nat := if quoted then [0x22] else []

/-- What `idio_utf8_string` is to make of some units: their texts in an allocation as large as
the first pass has found, with a NUL, and their number. -/
structure Sized (isprint : Nat → Bool) (flags : StringFlags) (escapes quoted : Bool) (cs : List Nat)
    (r : List Nat) (size : Nat) : Prop where
  allocated : r.length = utf8Size isprint flags escapes quoted cs
  fits : size + 1 ≤ r.length
  text : ∃ ts, cs.mapM (unitText isprint flags escapes) = .ok ts ∧
    r.take size = (openText flags quoted ++ ts.flatten ++ closeText quoted).map (· % 256)
  terminated : r[size]? = some 0

theorem openText_length :
    (openText flags quoted).length + (closeText quoted).length ≤
      if quoted then
        2 + (if flags.isPathname || flags.isOctet then 2 else 0) +
          (if flags = .fifoPathname then 1 else 0)
      else 0 := by
  cases quoted with
  | false => exact Nat.le_refl _
  | true => cases flags <;> decide

theorem utf8Units_sized (h : ∀ c ∈ cs, validCodePoint c) :
    ∃ r size, utf8Units isprint flags escapes quoted cs = .ok (r, size) ∧
      Sized isprint flags escapes quoted cs r size := by
  obtain ⟨ts, hts, hlen⟩ := @mapM_unitText isprint flags escapes _ h
  have hopen := @openText_length flags quoted
  have hsize : utf8Size isprint flags escapes quoted cs =
      (cs.map (unitSize isprint flags escapes)).sum + 1 + if quoted then
        2 + (if flags.isPathname || flags.isOctet then 2 else 0) +
          (if flags = .fifoPathname then 1 else 0)
      else 0 := by
    rw [utf8Size, foldl_unitSize, Nat.zero_add]
  have halloc : (gcAlloc .octet (utf8Size isprint flags escapes quoted cs)).length =
      utf8Size isprint flags escapes quoted cs := by
    rw [gcAlloc, List.length_replicate]
    exact Nat.div_one _
  generalize htext : openText flags quoted ++ ts.flatten ++ closeText quoted = text
  have htextlen : text.length + 1 ≤ utf8Size isprint flags escapes quoted cs := by
    rw [← htext, List.length_append, List.length_append, hsize]
    omega
  -- all that is written, one after the other
  have hall := @putUnits_of_le .octet (gcAlloc .octet (utf8Size isprint flags escapes quoted cs)) 0
    text (by rw [halloc]; omega)
  rw [List.take_zero, List.nil_append, Nat.zero_add] at hall
  generalize hr : text.map (· % StringFlags.octet.capacity) ++
    (gcAlloc .octet (utf8Size isprint flags escapes quoted cs)).drop text.length = r at hall
  have hrlen : r.length = utf8Size isprint flags escapes quoted cs := by
    rw [← halloc, ← putUnits_length hall]
  rw [← htext, putUnits_append, putUnits_append, Nat.zero_add] at hall
  obtain ⟨r₂, hwrite, hclose⟩ := bind_eq_ok.mp hall
  obtain ⟨r₁, hpre, hunits⟩ := bind_eq_ok.mp hwrite
  have hn : (openText flags quoted).length + ts.flatten.length + (closeText quoted).length =
      text.length := by
    rw [← htext, List.length_append, List.length_append]
  refine ⟨r.set text.length 0, text.length, ?_, ?_, ?_, ⟨ts, hts, ?_⟩, ?_⟩
  · rw [utf8Units]
    dsimp only
    rw [hpre, ok_bind, writeUnits_eq hts, hunits]
    rw [Nat.zero_add, List.length_append] at hclose
    show (putUnits .octet r₂ _ (closeText quoted) >>= fun r =>
      putUnit .octet r (_ + (closeText quoted).length) 0 >>= fun r => .ok (r, _)) = _
    rw [hclose, ok_bind, hn, putUnit, if_pos (by omega), ok_bind]
    exact congrArg _ (Prod.ext rfl hn)
  · rw [List.length_set, hrlen]
  · rw [List.length_set, hrlen]
    exact htextlen
  · rw [htext, List.take_set_of_le (Nat.le_refl _), ← hr, List.take_left' (List.length_map _)]
    rfl
  · rw [List.getElem?_set_self (by omega)]

end Passes

/-! ## Reading back -/

section Reading

variable {st : Strings} {v w : Nat} {sp sp' : Span} {cps cps' : List Nat} {so : StringS}

/-- What an operation that goes over a value finds. -/
structure Reads (st : Strings) (v : Nat) (sp : Span) (cps : List Nat) : Prop where
  span : st.span v = .ok sp
  len : sp.len = cps.length
  unit : ∀ i cp, cps[i]? = some cp → st.readUnit sp i = .ok cp

theorem string2listLoop_reads {n : Nat} {r : List Nat} (h : st.string2listLoop sp n r = .ok cps) :
    ∃ xs, cps = xs ++ r ∧ xs.length = n ∧ ∀ i cp, xs[i]? = some cp → st.readUnit sp i = .ok cp := by
  induction n generalizing r with
  | zero =>
    cases h
    exact ⟨[], rfl, rfl, fun i cp hi => by cases hi⟩
  | succ n ih =>
    obtain ⟨u, hu, h⟩ := bind_eq_ok.mp h
    obtain ⟨xs, rfl, hlen, hxs⟩ := ih h
    refine ⟨xs ++ [u], List.append_cons .., by rw [List.length_append, hlen]; rfl, ?_⟩
    intro i cp hi
    by_cases hlt : i < xs.length
    · rw [List.getElem?_append_left hlt] at hi
      exact hxs i cp hi
    · rw [List.getElem?_append_right (Nat.not_lt.mp hlt)] at hi
      have hin := (List.getElem?_eq_some_iff.mp hi).1
      rw [List.length_singleton] at hin
      rw [show i - xs.length = 0 by omega] at hi
      cases hi
      rwa [show i = n by omega]

theorem reads_of_string2list (h : st.string2list v = .ok cps) : ∃ sp, Reads st v sp cps := by
  obtain ⟨sp, hsp, h⟩ := bind_eq_ok.mp h
  obtain ⟨xs, rfl, hlen, hxs⟩ := string2listLoop_reads h
  rw [List.append_nil]
  exact ⟨sp, hsp, hlen.symm, hxs⟩

theorem Reads.string2list (h : Reads st v sp cps) : st.string2list v = .ok cps := by
  have hloop : ∀ n, n ≤ cps.length → st.string2listLoop sp n (cps.drop n) = .ok cps := by
    intro n
    induction n with
    | zero => exact fun _ => rfl
    | succ n ih =>
      intro hn
      have hget : cps[n]? = some cps[n] := List.getElem?_eq_getElem hn
      rw [Strings.string2listLoop, h.unit n _ hget, ok_bind, ← List.drop_eq_getElem_cons hn]
      exact ih (Nat.le_of_succ_le hn)
  have hall := hloop cps.length (Nat.le_refl _)
  rw [List.drop_length] at hall
  rw [Strings.string2list, h.span, ok_bind, h.len]
  exact hall

/-- A new string. -/
theorem reads_add (st : Strings) (hlen : so.len ≤ so.s.length) :
    Reads (st.add (.string so)).2 st.length ⟨st.length, 0, so.len, so.flags⟩ so.codePoints := by
  have hget : (st.add (.string so)).2[st.length]? = some (.string so) := List.getElem?_concat_length
  refine ⟨?_, ?_, ?_⟩
  · rw [Strings.span, hget]
  · rw [StringS.codePoints, List.length_take, Nat.min_eq_left hlen]
  · intro i cp hi
    rw [Strings.readUnit, hget]
    dsimp only
    rw [Nat.zero_mod, if_neg (not_not.mpr rfl), Nat.zero_div, Nat.zero_add]
    rw [StringS.codePoints, List.getElem?_take] at hi
    split at hi
    · rw [hi]
    · cases hi

theorem Reads.stringEqualLoop (h : Reads st v sp cps) (h' : Reads st w sp' cps')
    (hlen : cps.length = cps'.length) {n : Nat} (hn : n ≤ cps.length) :
    st.stringEqualLoop sp sp' n =
      .ok (cps.drop (cps.length - n) == cps'.drop (cps.length - n)) := by
  induction n with
  | zero =>
    rw [Nat.sub_zero, List.drop_length, hlen, List.drop_length]
    rfl
  | succ n ih =>
    have hlt : cps.length - (n + 1) < cps.length := by omega
    have hget : cps[cps.length - (n + 1)]? = some _ := List.getElem?_eq_getElem hlt
    have hlt' : cps.length - (n + 1) < cps'.length := by omega
    have hget' : cps'[cps.length - (n + 1)]? = some _ := List.getElem?_eq_getElem hlt'
    have hnext : cps.length - (n + 1) + 1 = cps.length - n := by omega
    rw [Strings.stringEqualLoop, h.len, h.unit _ _ hget, ok_bind, h'.unit _ _ hget', ok_bind,
      drop_of_getElem? hget, drop_of_getElem? hget', List.cons_beq_cons, hnext]
    by_cases hu : cps[cps.length - (n + 1)] = cps'[cps.length - (n + 1)]
    · rw [if_neg (not_not.mpr hu), ih (Nat.le_of_succ_le hn), beq_iff_eq.mpr hu, Bool.true_and]
    · rw [if_pos hu, beq_eq_false_iff_ne.mpr hu, Bool.false_and]

theorem Reads.stringEqual (h : Reads st v sp cps) (h' : Reads st w sp' cps') :
    st.stringEqual v w = .ok (cps == cps') := by
  rw [Strings.stringEqual, h.span, ok_bind, h'.span, ok_bind, h.len, h'.len]
  by_cases hlen : cps.length = cps'.length
  · rw [if_neg (not_not.mpr hlen), h.stringEqualLoop h' hlen (Nat.le_refl _), Nat.sub_self,
      List.drop_zero, List.drop_zero]
  · rw [if_pos hlen, beq_eq_false_iff_ne.mpr fun heq => hlen (congrArg _ heq)]

/-- `equal?` of a value and another string. -/
theorem Reads.equal (h : Reads st v sp cps) (hkind : sp.flags.isUnicode) (hne : v ≠ w)
    (hw : st[w]? = some (.string so)) (hso : so.flags.isUnicode) (h' : Reads st w sp' cps') :
    st.equal v w = .ok (cps == cps') := by
  have hequal := h.stringEqual h'
  have hspan' : sp' = ⟨w, 0, so.len, so.flags⟩ := by
    have hsp := h'.span
    rw [Strings.span, hw] at hsp
    exact (Except.ok.inj hsp).symm
  have hlen' : so.len = cps'.length := by
    rw [← h'.len, hspan']
  -- strings of different lengths have different code points
  have hdiffer : sp.len ≠ so.len → .ok false = (.ok (cps == cps') : Result Bool) := by
    intro hlen
    rw [h.len, hlen'] at hlen
    rw [beq_eq_false_iff_ne.mpr fun heq => hlen (congrArg _ heq)]
  have hspan := h.span
  rw [Strings.span] at hspan
  rw [Strings.equal, hw]
  cases hv : st[v]? with
  | none =>
    rw [hv] at hspan
    cases hspan
  | some o =>
    dsimp only
    rw [if_neg hne]
    cases o with
    | string so₁ =>
      rw [hv] at hspan
      cases hspan
      dsimp only
      rw [sameKind_of_isUnicode hkind hso, Bool.not_true, if_neg Bool.false_ne_true, hequal]
      split
      · exact hdiffer ‹_›
      · rfl
    | substring s parent len =>
      have hlen : len = sp.len := by
        rw [hv] at hspan
        dsimp only at hspan
        split at hspan
        · cases hspan
          rfl
        · cases hspan
      dsimp only
      rw [hequal, hlen]
      split
      · exact hdiffer ‹_›
      · rfl

end Reading

/-! ## Decoding what has been encoded -/

section Decoding

open Utf8

/-- High and low surrogates. -/
def Surrogate (c : Nat) : Prop := 0xD800 ≤ c ∧ c ≤ 0xDFFF

instance (c : Nat) : Decidable (Surrogate c) := inferInstanceAs (Decidable (_ ∧ _))

/-- What the decoder makes of bytes that start with a sequence. -/
theorem codes_of_starts {bs rest : List UInt8} {c : Option Char} (h : Starts bs c rest) :
    codes true utf8Accept bs =
      (c.map Char.toNat).getD replacement :: codes true utf8Accept rest := by
  have hne : bs ≠ [] := by
    rintro rfl
    exact h.not_incomplete (incomplete_iff.mpr (.inl rfl))
  have hstops := decodeOne_stops 0 hne
  rw [codes_of_ne true utf8Accept hne, if_pos rfl, codes_resets]
  generalize decodeOne utf8Accept 0 bs = stop at hstops
  cases hstops with
  | accept h' =>
    obtain ⟨rfl, rfl⟩ := h.unique h'
    rfl
  | reject h' =>
    obtain ⟨rfl, rfl⟩ := h.unique h'
    rfl
  | ended h' => exact absurd h' h.not_incomplete

/-- The second byte of a surrogate spoils the first. -/
theorem starts_surrogate {c : Nat} (h : Surrogate c) (bs : List UInt8) :
    ∃ rest, Starts ((codePointBytes c).map UInt8.ofNat ++ bs) none rest := by
  obtain ⟨hlow, hhigh⟩ := h
  have hfirst : c / 2 ^ 12 % 16 + 0xe0 = 0xED := by omega
  rw [codePointBytes_eq, if_neg (by omega), if_pos (by omega), hfirst]
  have hspoils : IllFormed [0xED] (UInt8.ofNat (c / 2 ^ 6 % 64 + 0x80)) := by
    refine .of_next (d := ⟨2, 0x80, 0x9F, 13⟩) (by decide) (by decide) ?_
    rw [toNat_ofNat (by omega), Due.next, if_neg]
    intro hle
    have := hle.2.2
    dsimp only at this
    omega
  exact ⟨_, .illFormed hspoils (UInt8.ofNat (c % 64 + 0x80) :: bs)⟩

theorem exists_char {c : Nat} (hvalid : validCodePoint c) (h : ¬ Surrogate c) :
    ∃ ch : Char, ch.toNat = c := by
  have hle : c ≤ 0x10FFFF := of_decide_eq_true hvalid
  rw [Surrogate] at h
  exact exists_char_toNat (by omega)

/-- The bytes of some code points are decoded to as many code points exactly if there is no
surrogate among them. -/
theorem codes_bytes {xs ys : List Nat} (hvalid : ∀ c ∈ xs, validCodePoint c) :
    codes true utf8Accept ((xs.flatMap codePointBytes).map UInt8.ofNat) = xs ++ ys ↔
      (∀ c ∈ xs, ¬ Surrogate c) ∧ ys = [] := by
  induction xs with
  | nil =>
    rw [List.flatMap_nil, List.map_nil, codes_nil, List.nil_append]
    exact ⟨fun h => ⟨fun c hc => absurd hc List.not_mem_nil, h.symm⟩, fun h => h.2.symm⟩
  | cons c xs ih =>
    obtain ⟨hc, hxs⟩ := List.forall_mem_cons.mp hvalid
    rw [List.flatMap_cons, List.map_append, List.cons_append, List.forall_mem_cons]
    by_cases hsur : Surrogate c
    · obtain ⟨rest, hstarts⟩ := starts_surrogate hsur ((xs.flatMap codePointBytes).map UInt8.ofNat)
      rw [codes_of_starts hstarts]
      refine iff_of_false (fun heq => ?_) fun h => h.1.1 hsur
      have hhead : replacement = c := (List.cons.inj heq).1
      rw [← hhead] at hsur
      exact absurd hsur (by decide)
    · obtain ⟨ch, rfl⟩ := exists_char hc hsur
      rw [codePointBytes_encode, codes_of_starts (.wellFormed ch _)]
      show ch.toNat :: _ = _ ↔ _
      rw [List.cons_inj_right, ih hxs]
      exact ⟨fun h => ⟨⟨hsur, h.1⟩, h.2⟩, fun h => ⟨h.1.2, h.2⟩⟩

end Decoding

/-! ## The round trip -/

section RoundTrip

variable {isprint : Nat → Bool} {ipcp : ConversionPrecision} {st : Strings} {v : Nat} {sp : Span}
  {cps : List Nat}

/-- The precision asks for no fewer code points than there are. -/
def ConversionPrecision.Leaves (ipcp : ConversionPrecision) (len : Nat) : Prop :=
  ∃ prec, ipcp.prec = .ok prec ∧ ¬ (0 < prec ∧ prec < len)

/-- `string->octet-string` and `octet-string->string` give a string that is `equal?`. -/
def RoundTrips (isprint : Nat → Bool) (ipcp : ConversionPrecision) (st : Strings) (v : Nat) : Prop :=
  ∃ o st₁ s st₂, st.string2octetString isprint ipcp v = .ok (o, st₁) ∧
    st₁.octetString2string o = .ok (s, st₂) ∧ st₂.equal v s = .ok true

/-- What `idio_utf8_string` gives of a value. -/
theorem utf8String_sized (hv : Reads st v sp cps) (hvalid : ∀ c ∈ cps, validCodePoint c)
    (escapes quoted usePrec : Bool) {prec : Int}
    (hprec : (if usePrec then ipcp.prec else .ok 0) = .ok prec) :
    ∃ r size, st.utf8String isprint ipcp v escapes quoted usePrec = .ok (r, size) ∧
      Sized isprint sp.flags escapes quoted (precede prec cps) r size := by
  have hsub : ∀ c ∈ precede prec cps, validCodePoint c := by
    intro c hc
    rw [precede] at hc
    split at hc
    · exact hvalid c (List.mem_of_mem_take hc)
    · exact hvalid c hc
  obtain ⟨r, size, hrun, hsized⟩ := @utf8Units_sized isprint sp.flags escapes quoted _ hsub
  refine ⟨r, size, ?_, hsized⟩
  rw [Strings.utf8String, hprec, ok_bind, hv.span, ok_bind, hv.string2list, ok_bind]
  exact hrun

/-- The bytes of a unit without escapes. -/
def plainBytes (flags : StringFlags) (c : Nat) : List Nat :=
  if flags.isUnicode then codePointBytes c else [c]

/-- The bytes of a string, without escapes and quotes. -/
theorem Sized.plain {flags : StringFlags} {r : List Nat} {size : Nat}
    (hvalid : ∀ c ∈ cps, validCodePoint c) (hraw : ¬ flags.isUnicode → ∀ c ∈ cps, c < 256)
    (h : Sized isprint flags false false cps r size) : r.take size = cps.flatMap (plainBytes flags) := by
  obtain ⟨ts, hts, htext⟩ := h.text
  have hunit : ∀ c ∈ cps, unitText isprint flags false c = .ok (plainBytes flags c) := by
    intro c hc
    rw [unitText, hvalid c hc, plainBytes]
    cases flags <;> rfl
  have hbyte : ∀ c ∈ cps, ∀ b ∈ plainBytes flags c, b < 256 := by
    intro c hc b hb
    rw [plainBytes] at hb
    split at hb
    · exact codePointBytes_lt c b hb
    · rename_i hkind
      rw [List.mem_singleton.mp hb]
      exact hraw hkind c hc
  have htexts : ts = cps.map (plainBytes flags) := by
    clear htext hvalid hraw hbyte h
    induction cps generalizing ts with
    | nil =>
      cases hts
      rfl
    | cons c cps ih =>
      obtain ⟨hc, hcps⟩ := List.forall_mem_cons.mp hunit
      rw [List.mapM_cons, hc, ok_bind] at hts
      obtain ⟨ts', hts', hts⟩ := bind_eq_ok.mp hts
      cases hts
      rw [ih ts' hts' hcps]
      rfl
  rw [htext, htexts, openText, closeText, if_neg Bool.false_ne_true, if_neg Bool.false_ne_true,
    List.nil_append, List.append_nil, ← List.flatMap_def]
  conv_rhs => rw [← List.map_id (cps.flatMap (plainBytes flags))]
  refine List.map_congr_left fun b hb => ?_
  obtain ⟨c, hc, hbc⟩ := List.mem_flatMap.mp hb
  exact Nat.mod_eq_of_lt (hbyte c hc b hbc)

/-- The bytes of a unicode string, without escapes and quotes. -/
theorem Sized.verbatim {flags : StringFlags} (hkind : flags.isUnicode) {r : List Nat} {size : Nat}
    (hvalid : ∀ c ∈ cps, validCodePoint c) (h : Sized isprint flags false false cps r size) :
    r.take size = cps.flatMap codePointBytes := by
  rw [h.plain hvalid (absurd hkind)]
  refine List.flatMap_congr fun c _ => ?_
  rw [plainBytes, if_pos hkind]

/-- The octet string of some bytes. -/
theorem octetStringCLen_spec {s_C bytes : List Nat} {blen : Nat} (htake : s_C.take blen = bytes)
    (hlen : bytes.length = blen) (hlt : ∀ b ∈ bytes, b < 256) :
    ∃ so, octetStringCLen s_C blen = .ok so ∧ so.flags = .octet ∧ so.codePoints = bytes ∧
      so.len ≤ so.s.length := by
  have halloc : (gcAlloc .octet (blen + 1)).length = blen + 1 := by
    rw [gcAlloc, List.length_replicate]
    exact Nat.div_one _
  have hmap : bytes.map (· % StringFlags.octet.capacity) = bytes := by
    conv_rhs => rw [← List.map_id bytes]
    exact List.map_congr_left fun b hb => Nat.mod_eq_of_lt (hlt b hb)
  have hput := @putUnits_of_le .octet (gcAlloc .octet (blen + 1)) 0 bytes (by rw [halloc]; omega)
  have hputlen := putUnits_length hput
  rw [hmap, List.take_zero, List.nil_append] at hput hputlen
  have htaken : (bytes ++ (gcAlloc .octet (blen + 1)).drop (0 + bytes.length)).take blen = bytes :=
    List.take_left' hlen
  generalize bytes ++ (gcAlloc .octet (blen + 1)).drop (0 + bytes.length) = s₀ at hput hputlen htaken
  have hput0 : putUnit .octet s₀ blen 0 = .ok (s₀.set blen 0) := by
    rw [putUnit, if_pos (by rw [hputlen, halloc]; omega)]
    rfl
  refine ⟨⟨blen, blen, .octet, s₀.set blen 0⟩, ?_, rfl, ?_, ?_⟩
  · rw [octetStringCLen, htake, hput, ok_bind, hput0]
    rfl
  · rw [StringS.codePoints, List.take_set_of_le (Nat.le_refl _), htaken]
  · rw [List.length_set, hputlen, halloc]
    exact Nat.le_succ _

theorem Reads.of_prefix {st' : Strings} (h : Reads st v sp cps) (hpre : st <+: st') :
    Reads st' v sp cps := by
  obtain ⟨hspan, hread⟩ := frame_of_prefix hpre v sp h.span
  exact ⟨hspan, h.len, fun i cp hi => (hread i List.not_mem_nil).trans (h.unit i cp hi)⟩

theorem span_lt (h : st.span v = .ok sp) : v < st.length := by
  rw [Strings.span] at h
  by_contra hle
  rw [List.getElem?_eq_none (Nat.not_lt.mp hle)] at h
  cases h

/-- What a precision cuts off. -/
theorem precede_append (prec : Int) (cps : List Nat) :
    ∃ rest, cps = precede prec cps ++ rest ∧ (rest = [] ↔ ¬ (0 < prec ∧ prec < cps.length)) := by
  rw [precede]
  split
  · rename_i hcut
    refine ⟨_, (List.take_append_drop prec.toNat cps).symm, ?_⟩
    rw [List.drop_eq_nil_iff]
    omega
  · rename_i hcut
    exact ⟨[], (List.append_nil _).symm, iff_of_true rfl hcut⟩

/-- The round trip is exactly that of the code points. -/
theorem roundTrips_iff (hv : Reads st v sp cps) (hkind : sp.flags.isUnicode)
    (hvalid : ∀ c ∈ cps, validCodePoint c) :
    RoundTrips isprint ipcp st v ↔ ipcp.Leaves cps.length ∧ ∀ c ∈ cps, ¬ Surrogate c := by
  cases hprec : ipcp.prec with
  | error e =>
    refine iff_of_false ?_ ?_
    · rintro ⟨o, st₁, s, st₂, hencode, -⟩
      rw [Strings.string2octetString, Strings.utf8String, if_pos rfl, hprec] at hencode
      cases hencode
    · rintro ⟨⟨prec, hok, -⟩, -⟩
      rw [hprec] at hok
      cases hok
  | ok prec =>
    obtain ⟨rest, hrest, hnil⟩ := precede_append prec cps
    have hleaves : ipcp.Leaves cps.length ↔ rest = [] := by
      rw [hnil]
      constructor
      · rintro ⟨prec', hprec', hle⟩
        rw [hprec] at hprec'
        cases hprec'
        exact hle
      · exact fun hle => ⟨prec, hprec, hle⟩
    have hsub : ∀ c ∈ precede prec cps, validCodePoint c := fun c hc =>
      hvalid c (hrest ▸ List.mem_append_left rest hc)
    obtain ⟨r, size, hrun, hsized⟩ := @utf8String_sized isprint ipcp _ _ _ _ hv hvalid
      false false true prec hprec
    have hbytes := hsized.verbatim hkind hsub
    have hfits := hsized.fits
    obtain ⟨so, hso, hflags, hpoints, hroom⟩ := octetStringCLen_spec hbytes
      (by rw [← hbytes, List.length_take]; omega) (by
        intro b hb
        obtain ⟨c, -, hbc⟩ := List.mem_flatMap.mp hb
        exact codePointBytes_lt c b hbc)
    have hencode : st.string2octetString isprint ipcp v = .ok (st.add (.string so)) := by
      rw [Strings.string2octetString, hrun, ok_bind]
      dsimp only
      rw [hso]
      rfl
    have hoctet := reads_add st hroom
    rw [hpoints] at hoctet
    generalize hbs : ((precede prec cps).flatMap codePointBytes).map UInt8.ofNat = bs
    obtain ⟨so', hso', hpoints', hlen', hflags', -⟩ := stringCLen_codes bs
    have hroom' : so'.len ≤ so'.s.length := by
      rw [hlen', ← hpoints', StringS.codePoints, List.length_take]
      exact Nat.min_le_right _ _
    have hdecode : (st.add (.string so)).2.octetString2string st.length =
        .ok ((st.add (.string so)).2.add (.string so')) := by
      rw [Strings.octetString2string, hoctet.span, ok_bind, hoctet.string2list, ok_bind, hbs, hso']
      dsimp only
      rw [hflags]
      rfl
    have hstring := reads_add (st.add (.string so)).2 hroom'
    have hvalue := hv.of_prefix ((prefix_add st _).trans (prefix_add (st.add (.string so)).2 (.string so')))
    have hlt := span_lt hv.span
    have hne : v ≠ (st.add (.string so)).2.length := by
      show v ≠ (st ++ [_]).length
      rw [List.length_append]
      omega
    have hkind' : so'.flags.isUnicode := by
      rw [hflags']
      exact widest_isUnicode rfl _
    have hequal := hvalue.equal hkind hne List.getElem?_concat_length hkind' hstring
    -- the bytes of what the precision leaves, decoded
    have hcodes : RoundTrips isprint ipcp st v ↔ codes true utf8Accept bs = cps := by
      constructor
      · rintro ⟨o, st₁, s, st₂, hencode', hdecode', hequal'⟩
        rw [hencode] at hencode'
        cases hencode'
        have hsame := hdecode.symm.trans hdecode'
        cases hsame
        have htrue := hequal.symm.trans hequal'
        rw [← hpoints', beq_iff_eq.mp (Except.ok.inj htrue)]
      · intro hcodes
        refine ⟨_, _, _, _, hencode, hdecode, hequal.trans ?_⟩
        rw [hpoints', hcodes, beq_self_eq_true]
    rw [hcodes, hleaves, ← hbs]
    have hdecoded := @codes_bytes _ rest hsub
    rw [← hrest] at hdecoded
    rw [hdecoded]
    constructor
    · rintro ⟨hnone, rfl⟩
      rw [List.append_nil] at hrest
      exact ⟨rfl, hrest ▸ hnone⟩
    · rintro ⟨rfl, hnone⟩
      rw [List.append_nil] at hrest
      exact ⟨hrest ▸ hnone, rfl⟩

/-- **Bytes of strings.**  With and without escapes, quotes and a precision, what is written
for a value is its text within the allocation that the first pass has sized, and the count is
that of its bytes.  The round trip of a string of code points is exactly that of one with
no surrogates that the precision does not cut. -/
theorem utf8_encoding (isprint : Nat → Bool) (ipcp : ConversionPrecision) (st : Strings) (v : Nat)
    (cps : List Nat) (hv : st.string2list v = .ok cps) (hvalid : ∀ c ∈ cps, validCodePoint c) :
    ∃ sp, st.span v = .ok sp ∧
      (∀ escapes quoted usePrec prec, (if usePrec then ipcp.prec else .ok 0) = .ok prec →
        ∃ r size, st.utf8String isprint ipcp v escapes quoted usePrec = .ok (r, size) ∧
          Sized isprint sp.flags escapes quoted (precede prec cps) r size) ∧
      (sp.flags.isUnicode → (RoundTrips isprint ipcp st v ↔
        ipcp.Leaves cps.length ∧ ∀ c ∈ cps, ¬ Surrogate c)) := by
  obtain ⟨sp, hreads⟩ := reads_of_string2list hv
  refine ⟨sp, hreads.span, ?_, fun hkind => roundTrips_iff hreads hkind hvalid⟩
  intro escapes quoted usePrec prec hprec
  exact utf8String_sized hreads hvalid escapes quoted usePrec hprec

/-- A lone surrogate comes back as two U+FFFD, and of `"ab"` with a precision of one only the
first code point comes back. -/
theorem surrogate_and_precision :
    (¬ RoundTrips (fun _ => false) .none [.string ⟨2, 1, .twoByte, [0xD800]⟩] 0 ∧
      (codes true utf8Accept ((codePointBytes 0xD800).map UInt8.ofNat) = [0xFFFD, 0xFFFD])) ∧
    ¬ RoundTrips (fun _ => false) (.fixnum 1) [.string ⟨2, 2, .oneByte, [0x61, 0x62, 0]⟩] 0 := by
  refine ⟨⟨?_, by decide +kernel⟩, ?_⟩
  · obtain ⟨sp, hreads⟩ := @reads_of_string2list [.string ⟨2, 1, .twoByte, [0xD800]⟩] 0
      [0xD800] (by decide)
    have hkind : sp.flags.isUnicode := by
      cases hreads.span
      rfl
    rw [roundTrips_iff hreads hkind (by decide)]
    exact fun h => h.2 0xD800 List.mem_cons_self (by decide)
  · obtain ⟨sp, hreads⟩ := @reads_of_string2list
      [.string ⟨2, 2, .oneByte, [0x61, 0x62, 0]⟩] 0 [0x61, 0x62] (by decide)
    have hkind : sp.flags.isUnicode := by
      cases hreads.span
      rfl
    rw [roundTrips_iff hreads hkind (by decide)]
    rintro ⟨⟨prec, hprec, hcut⟩, -⟩
    cases hprec
    exact hcut (by decide)

/-- `aé€` and U+1F600, with quotes and escapes and there and back. -/
theorem utf8_encoding_smile :
    ∃ sp, Strings.span [.string ⟨16, 4, .fourByte, [0x61, 0xE9, 0x20AC, 0x1F600]⟩] 0 = .ok sp ∧
      (∀ escapes quoted usePrec prec,
        (if usePrec then ConversionPrecision.none.prec else .ok 0) = .ok prec →
        ∃ r size, Strings.utf8String (fun _ => false) .none
            [.string ⟨16, 4, .fourByte, [0x61, 0xE9, 0x20AC, 0x1F600]⟩] 0 escapes quoted usePrec =
              .ok (r, size) ∧
          Sized (fun _ => false) sp.flags escapes quoted
            (precede prec [0x61, 0xE9, 0x20AC, 0x1F600]) r size) ∧
      (sp.flags.isUnicode → (RoundTrips (fun _ => false) .none
          [.string ⟨16, 4, .fourByte, [0x61, 0xE9, 0x20AC, 0x1F600]⟩] 0 ↔
        ConversionPrecision.none.Leaves 4 ∧ ∀ c ∈ [0x61, 0xE9, 0x20AC, 0x1F600], ¬ Surrogate c)) :=
  utf8_encoding (fun _ => false) .none [.string ⟨16, 4, .fourByte, [0x61, 0xE9, 0x20AC, 0x1F600]⟩] 0
    [0x61, 0xE9, 0x20AC, 0x1F600] (by decide) (by decide)

end RoundTrip

end Idio
