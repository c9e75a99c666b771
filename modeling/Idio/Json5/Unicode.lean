/-
  Json5/Unicode.lean --- JSON5 strings and what ECMAScript says of their code points.

  A `json5_unicode_string_t` is an allocation of cells of one, two or four bytes; it is
  made wider in place when a code point that does not fit is to be stored.  The
  `json5_ECMA_*` tests look at the code points from a position on: each moves the
  position, and its caller resets it if the test fails.
-/
import Idio.Lib.Cells
import Idio.Json5.Value
import Idio.String.Encode

set_option autoImplicit false

namespace Idio.Json5

/-- `json5_unicode_string_width_t` -/
inductive Width where
  | oneByte
  | twoByte
  | fourByte
  deriving DecidableEq, Repr

def Width.bytes : Width → Nat
  | .oneByte => 1
  | .twoByte => 2
  | .fourByte => 4

/-- `json5_unicode_string_t`, less its index: `s` is the allocation. -/
structure UnicodeString where
  width : Width
  len : Nat
  s : List Nat
  deriving DecidableEq, Repr

/-- `JSON5_UNICODE_INVALID` -/
def unicodeInvalid : Nat := 0x110000

/-- `json5_unicode_string_peek` -/
def UnicodeString.peek (s : UnicodeString) (i : Nat) : Result Nat :=
  if i ≥ s.len then .ok unicodeInvalid
  else
    match Cells.read s.width.bytes i s.s with
    | some cp => .ok cp
    | none => .error .undefined

/-- `json5_unicode_string_next`, with the index after it -/
def UnicodeString.next (s : UnicodeString) (i : Nat) : Result (Nat × Nat) := do
  let cp ← s.peek i
  return (cp, i + 1)

/-- The next `n` code points. -/
def UnicodeString.nexts (s : UnicodeString) : Nat → Nat → Result (List Nat × Nat)
  | 0, i => .ok ([], i)
  | n + 1, i => do
      let (cp, i) ← s.next i
      let (cps, i) ← s.nexts n i
      return (cp :: cps, i)

/-- `json5_unicode_string_available`; the difference is a `size_t`. -/
def UnicodeString.available (s : UnicodeString) (i reqd : Nat) : Bool :=
  decide ((reqd : Int) ≤ ((s.len : Int) - i) % 2 ^ 64)

/-! ## Hexadecimal digits -/

/-- `isxdigit`, which is defined for an `unsigned char` -/
def isxdigit (c : Nat) : Result Bool :=
  if c < 0x100 then
    .ok ((0x30 ≤ c && c ≤ 0x39) || (0x41 ≤ c && c ≤ 0x46) || (0x61 ≤ c && c ≤ 0x66))
  else .error .undefined

/-- `isxdigit (h1) && isxdigit (h2) && ...` -/
def xdigits : List Nat → Result Bool
  | [] => .ok true
  | h :: hs => do
      if ← isxdigit h then xdigits hs else return false

/-- `h2i` -/
def h2i (c : Nat) : Result Nat :=
  if 0x30 ≤ c ∧ c ≤ 0x39 then .ok (c - 0x30)
  else if 0x41 ≤ c ∧ c ≤ 0x46 then .ok (c - 0x41 + 10)
  else if 0x61 ≤ c ∧ c ≤ 0x66 then .ok (c - 0x61 + 10)
  else jsonError ("hex2integer: 0X" ++ hex04 c ++ " is not a hex digit")

/-- `(h2i (h1) << 4) + h2i (h2)`, and so on -/
def hexNumber : Nat → List Nat → Result Nat
  | n, [] => .ok n
  | n, h :: hs => do hexNumber (n * 16 + (← h2i h)) hs

/-! ## The tests -/

/-- A test of the code points at an index: the code point it finds, and the index after it. -/
abbrev Test : Type := UnicodeString → Nat → Result (Option Nat × Nat)

/-- `json5_ECMA_LineTerminator` -/
def ecmaLineTerminator : Test := fun s i =>
  if s.available i 1 then do
    let (cp, i) ← s.next i
    if cp = 0x0A ∨ cp = 0x0D ∨ cp = 0x2028 ∨ cp = 0x2029 then return (some cp, i)
    else return (none, i)
  else .ok (none, i)

/-- `json5_ECMA_LineTerminatorSequence` -/
def ecmaLineTerminatorSequence : Test := fun s i =>
  if s.available i 1 then do
    let (cp, i) ← s.next i
    if cp = unicodeInvalid then return (none, i)
    else if cp = 0x0A ∨ cp = 0x2028 ∨ cp = 0x2029 then return (some cp, i)
    else if cp = 0x0D then
      if s.available i 1 then do
        let cp1 ← s.peek i
        if cp1 = unicodeInvalid then return (none, i)
        else if cp1 = 0x0A then return (some cp, i + 1)
        else return (some cp, i)
      else return (some cp, i)
    else return (none, i)
  else .ok (none, i)

/-- The code point that a SingleEscapeCharacter stands for. -/
def singleEscapeCharacter (cp : Nat) : Option Nat :=
  match cp with
  | 0x27 => some 0x27
  | 0x22 => some 0x22
  | 0x5C => some 0x5C
  | 0x62 => some 0x08
  | 0x66 => some 0x0C
  | 0x6E => some 0x0A
  | 0x72 => some 0x0D
  | 0x74 => some 0x09
  | 0x76 => some 0x0B
  | _ => none

/-- `json5_ECMA_SingleEscapeCharacter` -/
def ecmaSingleEscapeCharacter : Test := fun s i =>
  if s.available i 1 then do
    let (cp, i) ← s.next i
    return (singleEscapeCharacter cp, i)
  else .ok (none, i)

/-- `json5_ECMA_NonEscapeCharacter` -/
def ecmaNonEscapeCharacter : Test := fun s start => do
  let (r, i) ← ecmaSingleEscapeCharacter s start
  if r.isSome then return (none, i)
  else if s.available start 1 then do
    let (cp, i) ← s.next start
    if 0x30 ≤ cp ∧ cp ≤ 0x39 then return (none, i)
    else if cp = 0x78 ∨ cp = 0x75 then return (none, i)
    else do
      let (r, i) ← ecmaLineTerminator s start
      if r.isSome then return (none, i) else return (some cp, i)
  else return (none, start)

/-- `json5_ECMA_CharacterEscapeSequence` -/
def ecmaCharacterEscapeSequence : Test := fun s start => do
  let (r, i) ← ecmaSingleEscapeCharacter s start
  if r.isSome then return (r, i) else ecmaNonEscapeCharacter s start

/-- `json5_ECMA_HexEscapeSequence` -/
def ecmaHexEscapeSequence : Test := fun s i =>
  if s.available i 1 then do
    let (cp1, i) ← s.next i
    if cp1 = 0x78 then
      if s.available i 2 then do
        let (hs, i) ← s.nexts 2 i
        if ← xdigits hs then return (some (← hexNumber 0 hs), i)
        else jsonError ("json5/ECMA_HexEscapeSequence: \\x" ++ String.join (hs.map (" U+" ++ hex04 ·)))
      else return (none, i)
    else return (none, i)
  else .ok (none, i)

/-- A surrogate pair. -/
def surrogatePair (hs ls : Nat) : Nat := 0x10000 + (hs - 0xD800) * 0x400 + (ls - 0xDC00)

/-- In `json5_ECMA_UnicodeEscapeSequence`: the low surrogate that must follow a high one. -/
def ecmaLowSurrogate (hs : Nat) : Test := fun s i =>
  if s.available i 6 then do
    let (l, i) ← s.nexts 6 i
    let low ← (if l.take 2 = [0x5C, 0x75] then xdigits (l.drop 2) else .ok false)
    if low then do
      let ls ← hexNumber 0 (l.drop 2)
      if ls ≥ 0xDC00 ∧ ls ≤ 0xDFFF then return (some (surrogatePair hs ls), i)
      else jsonError ("json5/ECMA_UnicodeEscapeSequence: low surrogate range 0xDC00 <= 0X" ++
        hex04 ls ++ " <= 0xDFFF at " ++ toString (i - 6))
    else jsonError ("json5/ECMA_UnicodeEscapeSequence: not a low surrogate" ++
      String.join (l.map (" U+" ++ hex04 ·)) ++ " at " ++ toString (i - 6))
  else jsonError ("json5/ECMA_UnicodeEscapeSequence: expecting a low surrogate at " ++ toString i ++
    " / " ++ toString s.len)

/-- `json5_ECMA_UnicodeEscapeSequence` -/
def ecmaUnicodeEscapeSequence : Test := fun s i =>
  if s.available i 1 then do
    let (cp1, i) ← s.next i
    if cp1 = 0x75 then
      if s.available i 4 then do
        let (h, i) ← s.nexts 4 i
        if ← xdigits h then do
          let hs ← hexNumber 0 h
          if hs ≥ 0xD800 ∧ hs ≤ 0xDBFF then ecmaLowSurrogate hs s i else return (some hs, i)
        else jsonError ("json5/ECMA_UnicodeEscapeSequence: not hex digits \\u" ++
          String.join (h.map (" U+" ++ hex04 ·)) ++ " at " ++ toString (i - 6))
      else jsonError ("json5/ECMA_UnicodeEscapeSequence: EOS after \\u at " ++ toString i ++ " / " ++
        toString s.len)
    else return (none, i)
  else .ok (none, i)

/-- `json5_ECMA_EscapeSequence` -/
def ecmaEscapeSequence : Test := fun s start => do
  let (r, i) ← ecmaCharacterEscapeSequence s start
  if r.isSome then return (r, i)
  else if s.available start 1 then do
    let (cp1, i) ← s.next start
    if cp1 = 0x30 then return (some 0, i)
    else do
      let (r, i) ← ecmaHexEscapeSequence s start
      if r.isSome then return (r, i) else ecmaUnicodeEscapeSequence s start
  else return (none, start)

/-! ## Storing code points -/

section

-- what is in memory that was not written
variable (junk : Nat → Nat)

/-- `malloc` -/
def malloc (n : Nat) : List Nat := (List.range n).map fun i => junk i % 256

/-- `realloc` -/
def realloc (s : List Nat) (n : Nat) : List Nat := s.take n ++ (malloc junk n).drop s.length

/-- `json5_widen_unicode_string` -/
def widenUnicodeString (s : UnicodeString) (width : Width) : Result UnicodeString :=
  match Cells.widen s.width.bytes width.bytes s.len (realloc junk s.s (s.len * width.bytes)) with
  | some m => .ok ⟨width, s.len, m⟩
  | none => .error .undefined

/-- `json5_unicode_string_set` -/
def UnicodeString.set (s : UnicodeString) (i cp : Nat) : Result UnicodeString :=
  if i ≥ s.len then
    jsonError ("JSON5-string-set: invalid index for U+" ++ hex04 cp ++ " " ++ toString i ++ " / " ++
      toString s.len ++ " characters")
  else do
    let s ←
      (if cp ≥ 0x10000 ∧ s.width ≠ .fourByte then widenUnicodeString junk s .fourByte
      else if cp ≥ 0x100 ∧ s.width.bytes < 2 then widenUnicodeString junk s .twoByte
      else .ok s)
    match Cells.write s.width.bytes i cp s.s with
    | some m => .ok { s with s := m }
    | none => .error .undefined

end

/-! ## What is left of a string -/

/-- From the index on the string holds a text. -/
structure At (s : UnicodeString) (i : Nat) (text : List Nat) : Prop where
  bound : i + text.length = s.len
  size : s.len < 2 ^ 64
  lt : ∀ b ∈ s.s, b < 256
  read : ∀ j cp, text[j]? = some cp → Cells.read s.width.bytes (i + j) s.s = some cp
  valid : ∀ cp ∈ text, cp ≤ 0x10FFFF

variable {s : UnicodeString} {i n c : Nat} {text t : List Nat}

theorem At.drop (h : At s i text) (hn : n ≤ text.length) : At s (i + n) (text.drop n) where
  bound := by
    have hbound := h.bound
    rw [List.length_drop]
    omega
  size := h.size
  lt := h.lt
  read := fun j cp hj => by
    rw [List.getElem?_drop] at hj
    rw [Nat.add_assoc]
    exact h.read (n + j) cp hj
  valid := fun cp hcp => h.valid cp (List.mem_of_mem_drop hcp)

theorem At.tail (h : At s i (c :: t)) : At s (i + 1) t :=
  h.drop (n := 1) (Nat.succ_pos _)

theorem At.available (h : At s i text) (hn : n ≤ 6) : s.available i n = decide (n ≤ text.length) := by
  have hbound := h.bound
  have hsize := h.size
  rw [UnicodeString.available, decide_eq_decide]
  omega

theorem At.available_one (h : At s i (c :: t)) : s.available i 1 = true := by
  rw [h.available (by decide), List.length_cons, decide_eq_true_iff]
  exact Nat.succ_pos t.length

theorem At.peek (h : At s i (c :: t)) : s.peek i = .ok c := by
  have hbound := h.bound
  rw [List.length_cons] at hbound
  have hread := h.read 0 c rfl
  rw [Nat.add_zero] at hread
  rw [UnicodeString.peek, if_neg (by omega), hread]

theorem At.peek_nil (h : At s i []) : s.peek i = .ok unicodeInvalid :=
  if_pos (Nat.le_of_eq h.bound.symm)

theorem At.next (h : At s i (c :: t)) : s.next i = .ok (c, i + 1) := by
  rw [UnicodeString.next, h.peek]
  rfl

theorem At.nexts (h : At s i text) (hn : n ≤ text.length) :
    s.nexts n i = .ok (text.take n, i + n) := by
  induction n generalizing i text with
  | zero => rfl
  | succ n ih =>
    cases text with
    | nil => cases hn
    | cons c t =>
      rw [UnicodeString.nexts, h.next, ok_bind]
      dsimp only
      rw [ih h.tail (Nat.le_of_succ_le_succ hn), ok_bind, Nat.add_assoc, Nat.add_comm 1 n]
      rfl

theorem At.valid_head (h : At s i (c :: t)) : c ≠ unicodeInvalid := by
  have hc := h.valid c List.mem_cons_self
  rw [unicodeInvalid]
  omega

/-! ## Hexadecimal digits of the grammar -/

/-- HexDigit -/
def HexDigit (c : Nat) : Prop := 0x30 ≤ c ∧ c ≤ 0x39 ∨ 0x41 ≤ c ∧ c ≤ 0x46 ∨ 0x61 ≤ c ∧ c ≤ 0x66

instance : DecidablePred HexDigit := fun c =>
  inferInstanceAs (Decidable (0x30 ≤ c ∧ c ≤ 0x39 ∨ 0x41 ≤ c ∧ c ≤ 0x46 ∨ 0x61 ≤ c ∧ c ≤ 0x66))

/-- The value of a HexDigit. -/
def hexDigitValue (c : Nat) : Nat :=
  if c ≤ 0x39 then c - 0x30 else if c ≤ 0x46 then c - 0x41 + 10 else c - 0x61 + 10

/-- The value of HexDigits. -/
def hexValue (hs : List Nat) : Nat := hs.foldl (fun n h => n * 16 + hexDigitValue h) 0

/-- The first of the code points that is no HexDigit is none that `isxdigit` is defined for. -/
def wideDigit (hs : List Nat) : Bool :=
  (hs.dropWhile fun h => HexDigit h).head?.any fun c => decide (0x100 ≤ c)

theorem HexDigit.lt (h : HexDigit c) : c < 0x67 := by
  rw [HexDigit] at h
  omega

theorem hexDigitValue_lt (h : HexDigit c) : hexDigitValue c < 16 := by
  rw [HexDigit] at h
  rw [hexDigitValue]
  split_ifs <;> omega

theorem isxdigit_eq (hc : c < 0x100) : isxdigit c = .ok (decide (HexDigit c)) := by
  rw [isxdigit, if_pos hc, Except.ok.injEq, Bool.eq_iff_iff, decide_eq_true_iff, HexDigit]
  simp [or_assoc]

theorem xdigits_of_hex {hs : List Nat} (h : ∀ c ∈ hs, HexDigit c) : xdigits hs = .ok true := by
  induction hs with
  | nil => rfl
  | cons c hs ih =>
    obtain ⟨hc, hhs⟩ := List.forall_mem_cons.mp h
    rw [xdigits, isxdigit_eq (by have := hc.lt; omega), decide_eq_true hc, ok_bind, if_pos rfl, ih hhs]

theorem wideDigit_cons (hc : HexDigit c) {hs : List Nat} : wideDigit (c :: hs) = wideDigit hs := by
  simp [wideDigit, hc]

theorem wideDigit_of_not_hex (hc : ¬ HexDigit c) {hs : List Nat} :
    wideDigit (c :: hs) = decide (0x100 ≤ c) := by
  simp [wideDigit, hc]

/-- A test that finds no code point: it raises an error, or asks what is not defined. -/
def Stops {α : Type} (wide : Bool) (r : Result α) : Prop :=
  if wide then r = .error .undefined else Fails r

theorem xdigits_of_not_hex {hs : List Nat} (h : ¬ ∀ c ∈ hs, HexDigit c) :
    xdigits hs = if wideDigit hs then .error .undefined else .ok false := by
  induction hs with
  | nil => exact absurd (fun c hc => absurd hc List.not_mem_nil) h
  | cons c hs ih =>
    by_cases hc : HexDigit c
    · have hhs : ¬ ∀ c ∈ hs, HexDigit c := fun hhs => h (List.forall_mem_cons.mpr ⟨hc, hhs⟩)
      rw [xdigits, isxdigit_eq (by have := hc.lt; omega), decide_eq_true hc, ok_bind, if_pos rfl,
        wideDigit_cons hc, ih hhs]
    · rw [xdigits, wideDigit_of_not_hex hc]
      by_cases hlt : c < 0x100
      · rw [isxdigit_eq hlt, decide_eq_false hc, decide_eq_false (Nat.not_le.mpr hlt)]
        rfl
      · rw [isxdigit, if_neg hlt, decide_eq_true (Nat.not_lt.mp hlt)]
        rfl

theorem h2i_eq (h : HexDigit c) : h2i c = .ok (hexDigitValue c) := by
  rw [HexDigit] at h
  rw [h2i, hexDigitValue]
  split_ifs <;> first | rfl | omega

theorem hexNumber_eq {hs : List Nat} (h : ∀ c ∈ hs, HexDigit c) (n : Nat) :
    hexNumber n hs = .ok (hs.foldl (fun n h => n * 16 + hexDigitValue h) n) := by
  induction hs generalizing n with
  | nil => rfl
  | cons c hs ih =>
    obtain ⟨hc, hhs⟩ := List.forall_mem_cons.mp h
    rw [hexNumber, h2i_eq hc, ok_bind, ih hhs]
    rfl

/-! ## Escape sequences of the grammar -/

/-- The HexDigits of a HexEscapeSequence after its `x`: its value and how many there are. -/
def hexEscape? (t : List Nat) : Option (Nat × Nat) :=
  if (t.take 2).length = 2 ∧ ∀ c ∈ t.take 2, HexDigit c then some (hexValue (t.take 2), 2) else none

/-- The value of the low surrogate that is escaped next. -/
def lowSurrogate? (t : List Nat) : Option Nat :=
  let ls := (t.take 6).drop 2
  if (t.take 6).take 2 = [0x5C, 0x75] ∧ ls.length = 4 ∧ (∀ c ∈ ls, HexDigit c) ∧
      0xDC00 ≤ hexValue ls ∧ hexValue ls ≤ 0xDFFF then
    some (hexValue ls)
  else none

/-- A UnicodeEscapeSequence after its `u`; a high surrogate goes with the low one that is escaped
after it. -/
def unicodeEscape? (t : List Nat) : Option (Nat × Nat) :=
  if (t.take 4).length = 4 ∧ ∀ c ∈ t.take 4, HexDigit c then
    if 0xD800 ≤ hexValue (t.take 4) ∧ hexValue (t.take 4) ≤ 0xDBFF then
      (lowSurrogate? (t.drop 4)).map fun ls => (surrogatePair (hexValue (t.take 4)) ls, 10)
    else some (hexValue (t.take 4), 4)
  else none

/-- A wide digit is come upon in what should be a low surrogate. -/
def wideLow (t : List Nat) : Bool :=
  decide (6 ≤ t.length ∧ (t.take 6).take 2 = [0x5C, 0x75]) && wideDigit ((t.take 6).drop 2)

/-- A wide digit is come upon after the `u`. -/
def wideUnicode (t : List Nat) : Bool :=
  decide (4 ≤ t.length) &&
    if ∀ c ∈ t.take 4, HexDigit c then
      decide (0xD800 ≤ hexValue (t.take 4) ∧ hexValue (t.take 4) ≤ 0xDBFF) && wideLow (t.drop 4)
    else wideDigit (t.take 4)

theorem hexNumber_take {hs : List Nat} (h : ∀ c ∈ hs, HexDigit c) :
    hexNumber 0 hs = .ok (hexValue hs) :=
  hexNumber_eq h 0

theorem wideDigit_of_hex {hs : List Nat} (h : ∀ c ∈ hs, HexDigit c) : wideDigit hs = false := by
  induction hs with
  | nil => rfl
  | cons c hs ih =>
    obtain ⟨hc, hhs⟩ := List.forall_mem_cons.mp h
    rw [wideDigit_cons hc, ih hhs]

theorem stops_jsonError {α : Type} (msg : String) : Stops false (jsonError msg : Result α) :=
  fails_jsonError msg

theorem At.lowSurrogate (h : At s i t) (hs : Nat) :
    match lowSurrogate? t with
    | some ls => ecmaLowSurrogate hs s i = .ok (some (surrogatePair hs ls), i + 6) ∧ 6 ≤ t.length
    | none => Stops (wideLow t) (ecmaLowSurrogate hs s i) := by
  rw [ecmaLowSurrogate, h.available (by decide), lowSurrogate?, wideLow]
  by_cases hlen : 6 ≤ t.length
  · have hdigits : ((t.take 6).drop 2).length = 4 := by
      rw [List.length_drop, List.length_take, Nat.min_eq_left hlen]
    rw [decide_eq_true hlen, if_pos rfl, h.nexts hlen, ok_bind]
    dsimp only
    by_cases hu : (t.take 6).take 2 = [0x5C, 0x75]
    · rw [if_pos hu, decide_eq_true ⟨hlen, hu⟩, Bool.true_and]
      by_cases hhex : ∀ c ∈ (t.take 6).drop 2, HexDigit c
      · rw [xdigits_of_hex hhex, ok_bind, if_pos rfl, hexNumber_take hhex, ok_bind, wideDigit_of_hex hhex]
        by_cases hlow : hexValue ((t.take 6).drop 2) ≥ 0xDC00 ∧ hexValue ((t.take 6).drop 2) ≤ 0xDFFF
        · rw [if_pos hlow, if_pos ⟨hu, hdigits, hhex, hlow⟩]
          exact ⟨rfl, hlen⟩
        · rw [if_neg hlow, if_neg fun h => hlow h.2.2.2]
          exact stops_jsonError _
      · rw [xdigits_of_not_hex hhex, if_neg fun h => hhex h.2.2.1]
        cases wideDigit ((t.take 6).drop 2)
        · exact stops_jsonError _
        · rfl
    · rw [if_neg hu, ok_bind, if_neg Bool.false_ne_true, if_neg fun h => hu h.1,
        decide_eq_false fun h => hu h.2, Bool.false_and]
      exact stops_jsonError _
  · rw [decide_eq_false hlen, if_neg Bool.false_ne_true, decide_eq_false fun h => hlen h.1,
      Bool.false_and, if_neg fun h => ?_]
    · exact stops_jsonError _
    · have hdigits := h.2.1
      rw [List.length_drop, List.length_take] at hdigits
      omega

theorem At.unicodeEscape (h : At s i (0x75 :: t)) :
    match unicodeEscape? t with
    | some (v, n) => ecmaUnicodeEscapeSequence s i = .ok (some v, i + 1 + n) ∧ n ≤ t.length
    | none => Stops (wideUnicode t) (ecmaUnicodeEscapeSequence s i) := by
  have ht := h.tail
  rw [ecmaUnicodeEscapeSequence, if_pos h.available_one, h.next, ok_bind]
  dsimp only
  rw [if_pos rfl, ht.available (by decide), unicodeEscape?, wideUnicode]
  by_cases hlen : 4 ≤ t.length
  · rw [decide_eq_true hlen, if_pos rfl, ht.nexts hlen, ok_bind, Bool.true_and]
    dsimp only
    by_cases hhex : ∀ c ∈ t.take 4, HexDigit c
    · rw [xdigits_of_hex hhex, ok_bind, if_pos rfl, hexNumber_take hhex, ok_bind,
        if_pos ⟨List.length_take_of_le hlen, hhex⟩, if_pos hhex]
      by_cases hhigh : hexValue (t.take 4) ≥ 0xD800 ∧ hexValue (t.take 4) ≤ 0xDBFF
      · rw [if_pos hhigh, if_pos hhigh, decide_eq_true hhigh, Bool.true_and]
        have hlow := (ht.drop hlen).lowSurrogate (hexValue (t.take 4))
        cases hls : lowSurrogate? (t.drop 4) with
        | none =>
          rw [hls] at hlow
          exact hlow
        | some ls =>
          rw [hls] at hlow
          obtain ⟨hrun, hlen'⟩ := hlow
          rw [List.length_drop] at hlen'
          exact ⟨hrun, by omega⟩
      · rw [if_neg hhigh, if_neg hhigh]
        exact ⟨rfl, hlen⟩
    · rw [xdigits_of_not_hex hhex, if_neg fun h => hhex h.2, if_neg hhex]
      cases wideDigit (t.take 4)
      · exact stops_jsonError _
      · rfl
  · rw [decide_eq_false hlen, if_neg Bool.false_ne_true, Bool.false_and, if_neg fun h => ?_]
    · exact stops_jsonError _
    · have hdigits := h.1
      rw [List.length_take] at hdigits
      omega

/-- DecimalDigit -/
def DecimalDigit (c : Nat) : Prop := 0x30 ≤ c ∧ c ≤ 0x39

instance : DecidablePred DecimalDigit := fun c => inferInstanceAs (Decidable (0x30 ≤ c ∧ c ≤ 0x39))

/-- LineTerminator -/
def LineTerminator (c : Nat) : Prop := c = 0x0A ∨ c = 0x0D ∨ c = 0x2028 ∨ c = 0x2029

instance : DecidablePred LineTerminator := fun c =>
  inferInstanceAs (Decidable (c = 0x0A ∨ c = 0x0D ∨ c = 0x2028 ∨ c = 0x2029))

/-- CharacterEscapeSequence: a SingleEscapeCharacter, or a NonEscapeCharacter, which stands for
itself. -/
def characterEscape? (c : Nat) : Option Nat :=
  match singleEscapeCharacter c with
  | some v => some v
  | none => if DecimalDigit c ∨ c = 0x78 ∨ c = 0x75 ∨ LineTerminator c then none else some c

/-- EscapeSequence: the code point, and how many it is written with. -/
def escapeSequence? : List Nat → Option (Nat × Nat)
  | [] => none
  | c :: t =>
    match characterEscape? c with
    | some v => some (v, 1)
    | none =>
      if c = 0x30 then if t.head?.any (fun d => DecimalDigit d) then none else some (0, 1)
      else if c = 0x78 then (hexEscape? t).map fun (v, n) => (v, n + 1)
      else if c = 0x75 then (unicodeEscape? t).map fun (v, n) => (v, n + 1)
      else none

/-- LineTerminatorSequence: how many code points it has. -/
def lineTerminatorSequence? : List Nat → Option Nat
  | [] => none
  | c :: t =>
    if LineTerminator c then if c = 0x0D ∧ t.head? = some 0x0A then some 2 else some 1 else none

theorem At.singleEscape (h : At s i (c :: t)) :
    ecmaSingleEscapeCharacter s i = .ok (singleEscapeCharacter c, i + 1) := by
  rw [ecmaSingleEscapeCharacter, if_pos h.available_one, h.next]
  rfl

theorem At.lineTerminator (h : At s i (c :: t)) :
    ecmaLineTerminator s i = .ok (if LineTerminator c then some c else none, i + 1) := by
  rw [ecmaLineTerminator, if_pos h.available_one, h.next, ok_bind]
  by_cases hc : LineTerminator c
  · rw [if_pos hc]
    exact if_pos hc
  · rw [if_neg hc]
    exact if_neg hc

theorem At.lineTerminatorSequence (h : At s i (c :: t)) :
    match lineTerminatorSequence? (c :: t) with
    | some n => ecmaLineTerminatorSequence s i = .ok (some c, i + n) ∧ n ≤ t.length + 1
    | none => ecmaLineTerminatorSequence s i = .ok (none, i + 1) := by
  have ht := h.tail
  rw [ecmaLineTerminatorSequence, if_pos h.available_one, h.next, ok_bind]
  dsimp only
  rw [if_neg h.valid_head, lineTerminatorSequence?]
  by_cases hcr : c = 0x0D
  · subst hcr
    have hother : ¬ (0x0D = 0x0A ∨ 0x0D = 0x2028 ∨ 0x0D = 0x2029) := by decide
    rw [if_pos (show LineTerminator 0x0D from .inr (.inl rfl)), if_neg hother, if_pos rfl]
    cases t with
    | nil =>
      rw [ht.available (by decide), if_neg (by decide), if_neg (by rintro ⟨-, ⟨⟩⟩)]
      exact ⟨rfl, Nat.le_refl 1⟩
    | cons d t =>
      rw [if_pos ht.available_one, ht.peek, ok_bind, if_neg ht.valid_head]
      by_cases hlf : d = 0x0A
      · subst hlf
        rw [if_pos rfl, if_pos ⟨rfl, rfl⟩]
        exact ⟨rfl, Nat.le_add_left 2 t.length⟩
      · rw [if_neg hlf, if_neg fun h => hlf (Option.some.inj h.2)]
        exact ⟨rfl, Nat.le_add_left 1 _⟩
  · rw [if_neg hcr, if_neg (c := c = 0x0D ∧ _) fun h => hcr h.1]
    by_cases hc : LineTerminator c
    · have hother : c = 0x0A ∨ c = 0x2028 ∨ c = 0x2029 := by
        rw [LineTerminator] at hc
        omega
      rw [if_pos hc, if_pos hother]
      exact ⟨rfl, Nat.le_add_left 1 _⟩
    · have hother : ¬ (c = 0x0A ∨ c = 0x2028 ∨ c = 0x2029) := fun h => hc (by
        rw [LineTerminator]
        omega)
      rw [if_neg hc, if_neg hother]
      rfl

theorem At.nonEscape (h : At s i (c :: t)) (hsingle : singleEscapeCharacter c = none) :
    ecmaNonEscapeCharacter s i = .ok (characterEscape? c, i + 1) := by
  rw [ecmaNonEscapeCharacter, h.singleEscape, ok_bind, hsingle, characterEscape?,
    hsingle]
  dsimp only
  rw [if_neg (by decide), if_pos h.available_one, h.next, ok_bind]
  dsimp only
  by_cases hdigit : DecimalDigit c
  · rw [if_pos (show 0x30 ≤ c ∧ c ≤ 0x39 from hdigit), if_pos (.inl hdigit)]
    rfl
  by_cases hxu : c = 0x78 ∨ c = 0x75
  · rw [if_neg (show ¬ (0x30 ≤ c ∧ c ≤ 0x39) from hdigit), if_pos hxu, if_pos (.inr (hxu.imp_right .inl))]
    rfl
  obtain ⟨hx, hu⟩ := not_or.mp hxu
  rw [if_neg (show ¬ (0x30 ≤ c ∧ c ≤ 0x39) from hdigit), if_neg hxu, h.lineTerminator, ok_bind]
  by_cases hlt : LineTerminator c
  · rw [if_pos hlt, if_pos (show DecimalDigit c ∨ _ from .inr (.inr (.inr hlt)))]
    rfl
  · rw [if_neg hlt, if_neg (not_or.mpr ⟨hdigit, not_or.mpr ⟨hx, not_or.mpr ⟨hu, hlt⟩⟩⟩)]
    rfl

theorem At.characterEscape (h : At s i (c :: t)) :
    ecmaCharacterEscapeSequence s i = .ok (characterEscape? c, i + 1) := by
  rw [ecmaCharacterEscapeSequence, h.singleEscape, ok_bind]
  cases hsingle : singleEscapeCharacter c with
  | some v =>
    rw [characterEscape?, hsingle]
    rfl
  | none => exact h.nonEscape hsingle

theorem At.hexEscape (h : At s i (0x78 :: t)) :
    if t.length < 2 then ecmaHexEscapeSequence s i = .ok (none, i + 1)
    else
      match hexEscape? t with
      | some (v, n) => ecmaHexEscapeSequence s i = .ok (some v, i + 1 + n) ∧ n ≤ t.length
      | none => Stops (wideDigit (t.take 2)) (ecmaHexEscapeSequence s i) := by
  have ht := h.tail
  by_cases hlen : 2 ≤ t.length
  · rw [if_neg (Nat.not_lt.mpr hlen), ecmaHexEscapeSequence, if_pos h.available_one, h.next, ok_bind]
    dsimp only
    rw [if_pos rfl, ht.available (by decide), decide_eq_true hlen, if_pos rfl, ht.nexts hlen, ok_bind,
      hexEscape?]
    dsimp only
    by_cases hhex : ∀ c ∈ t.take 2, HexDigit c
    · rw [xdigits_of_hex hhex, ok_bind, if_pos rfl, hexNumber_take hhex,
        if_pos ⟨List.length_take_of_le hlen, hhex⟩]
      exact ⟨rfl, hlen⟩
    · rw [xdigits_of_not_hex hhex, if_neg fun h => hhex h.2]
      cases wideDigit (t.take 2)
      · exact stops_jsonError _
      · rfl
  · rw [if_pos (Nat.not_le.mp hlen), ecmaHexEscapeSequence, if_pos h.available_one, h.next, ok_bind]
    dsimp only
    rw [if_pos rfl, ht.available (by decide), decide_eq_false hlen]
    rfl

theorem At.hexEscape_ne (h : At s i (c :: t)) (hc : c ≠ 0x78) :
    ecmaHexEscapeSequence s i = .ok (none, i + 1) := by
  rw [ecmaHexEscapeSequence, if_pos h.available_one, h.next, ok_bind]
  exact if_neg hc

theorem At.unicodeEscape_ne (h : At s i (c :: t)) (hc : c ≠ 0x75) :
    ecmaUnicodeEscapeSequence s i = .ok (none, i + 1) := by
  rw [ecmaUnicodeEscapeSequence, if_pos h.available_one, h.next, ok_bind]
  exact if_neg hc

/-- A wide digit is come upon in an escape. -/
def wideEscape : List Nat → Bool
  | [] => false
  | c :: t => if c = 0x78 then wideDigit (t.take 2) else if c = 0x75 then wideUnicode t else false

theorem characterEscape_eq_none (h : characterEscape? c = none) :
    DecimalDigit c ∨ c = 0x78 ∨ c = 0x75 ∨ LineTerminator c := by
  rw [characterEscape?] at h
  split at h
  · cases h
  · by_contra hno
    rw [if_neg hno] at h
    cases h

theorem At.escapeSequence_character (h : At s i (c :: t)) {v : Nat} (hchar : characterEscape? c = some v) :
    ecmaEscapeSequence s i = .ok (some v, i + 1) := by
  rw [ecmaEscapeSequence, h.characterEscape, ok_bind, hchar]
  rfl

theorem At.escapeSequence_zero (h : At s i (0x30 :: t)) :
    ecmaEscapeSequence s i = .ok (some 0, i + 1) := by
  rw [ecmaEscapeSequence, h.characterEscape, ok_bind]
  change (if s.available i 1 then _ else _) = _
  rw [if_pos h.available_one, h.next]
  rfl

/-- Where there is no CharacterEscapeSequence and no zero, the other two are tried. -/
theorem At.escapeSequence_hex (h : At s i (c :: t)) (hchar : characterEscape? c = none) (hc : c ≠ 0x30) :
    ecmaEscapeSequence s i = (do
      let (r, j) ← ecmaHexEscapeSequence s i
      if r.isSome then return (r, j) else ecmaUnicodeEscapeSequence s i) := by
  rw [ecmaEscapeSequence, h.characterEscape, ok_bind, hchar]
  change (if s.available i 1 then _ else _) = _
  rw [if_pos h.available_one, h.next, ok_bind]
  exact if_neg hc

theorem At.escapeSequence_unicode (h : At s i (c :: t)) (hchar : characterEscape? c = none)
    (hc : c ≠ 0x30) (hx : c ≠ 0x78) : ecmaEscapeSequence s i = ecmaUnicodeEscapeSequence s i := by
  rw [h.escapeSequence_hex hchar hc, h.hexEscape_ne hx]
  rfl

theorem Stops.bind {α β : Type} {wide : Bool} {r : Result α} (h : Stops wide r) (f : α → Result β) :
    Stops wide (r >>= f) := by
  cases wide with
  | true =>
    rw [show r = .error .undefined from h]
    rfl
  | false => exact Fails.bind h f

/-- `json5_ECMA_EscapeSequence` does not look for a digit after a zero, and finds nothing at a
digit, a LineTerminator or an `x` near the end of the input. -/
theorem At.escapeSequence (h : At s i (c :: t)) :
    match escapeSequence? (c :: t) with
    | some (v, n) => ecmaEscapeSequence s i = .ok (some v, i + n) ∧ n ≤ t.length + 1
    | none =>
      if c = 0x30 then ecmaEscapeSequence s i = .ok (some 0, i + 1)
      else if DecimalDigit c ∨ LineTerminator c ∨ c = 0x78 ∧ t.length < 2 then
        ecmaEscapeSequence s i = .ok (none, i + 1)
      else Stops (wideEscape (c :: t)) (ecmaEscapeSequence s i) := by
  rw [escapeSequence?]
  cases hchar : characterEscape? c with
  | some v => exact ⟨h.escapeSequence_character hchar, Nat.le_add_left 1 _⟩
  | none =>
    dsimp only
    by_cases h0 : c = 0x30
    · subst h0
      rw [if_pos rfl, if_pos rfl]
      split
      · rename_i v n heq
        split at heq
        · cases heq
        · cases heq
          exact ⟨h.escapeSequence_zero, Nat.le_add_left 1 _⟩
      · exact h.escapeSequence_zero
    rw [if_neg h0, if_neg h0]
    by_cases hx : c = 0x78
    · subst hx
      have hhex := h.hexEscape
      rw [h.escapeSequence_hex hchar h0, if_pos rfl, wideEscape, if_pos rfl]
      by_cases hlen : t.length < 2
      · rw [if_pos hlen] at hhex
        rw [hhex, ok_bind, hexEscape?, if_neg fun h => ?_, Option.map_none]
        · dsimp only
          rw [if_pos (.inr (.inr ⟨rfl, hlen⟩))]
          exact h.unicodeEscape_ne (by decide)
        · have hdigits := h.1
          rw [List.length_take] at hdigits
          omega
      · rw [if_neg hlen] at hhex
        cases hfind : hexEscape? t with
        | some p =>
          rw [hfind] at hhex
          rw [hhex.1, ok_bind, Option.map_some]
          exact ⟨congrArg (fun j => Except.ok (some p.1, j)) (Nat.succ_add_eq_add_succ i p.2),
            Nat.succ_le_succ hhex.2⟩
        | none =>
          rw [hfind] at hhex
          rw [Option.map_none]
          dsimp only
          rw [if_neg fun h => ?_]
          · exact hhex.bind _
          · rcases h with h | h | h
            · exact absurd h (by decide)
            · exact absurd h (by decide)
            · exact hlen h.2
    rw [if_neg hx, h.escapeSequence_unicode hchar h0 hx, wideEscape, if_neg hx]
    by_cases hu : c = 0x75
    · subst hu
      have hunicode := h.unicodeEscape
      rw [if_pos rfl, if_pos rfl]
      cases hfind : unicodeEscape? t with
      | some p =>
        rw [hfind] at hunicode
        rw [hunicode.1, Option.map_some]
        exact ⟨congrArg (fun j => Except.ok (some p.1, j)) (Nat.succ_add_eq_add_succ i p.2),
          Nat.succ_le_succ hunicode.2⟩
      | none =>
        rw [hfind] at hunicode
        rw [Option.map_none]
        dsimp only
        rw [if_neg fun h => ?_]
        · exact hunicode
        · rcases h with h | h | h
          · exact absurd h (by decide)
          · exact absurd h (by decide)
          · exact absurd h.1 (by decide)
    · have hother : DecimalDigit c ∨ LineTerminator c := by
        rcases characterEscape_eq_none hchar with h | h | h | h
        · exact .inl h
        · exact absurd h hx
        · exact absurd h hu
        · exact .inr h
      rw [if_neg hu, h.unicodeEscape_ne hu]
      dsimp only
      rw [if_pos (hother.imp_right Or.inl)]

/-! ## The code points of escapes -/

theorem foldl_hex_lt {hs : List Nat} (h : ∀ c ∈ hs, HexDigit c) (n : Nat) :
    hs.foldl (fun n h => n * 16 + hexDigitValue h) n < (n + 1) * 16 ^ hs.length := by
  induction hs generalizing n with
  | nil => exact Nat.lt_succ_of_le (Nat.le_of_eq (Nat.mul_one _).symm)
  | cons c hs ih =>
    obtain ⟨hc, hhs⟩ := List.forall_mem_cons.mp h
    have hdigit := hexDigitValue_lt hc
    calc _ < (n * 16 + hexDigitValue c + 1) * 16 ^ hs.length := ih hhs _
      _ ≤ ((n + 1) * 16) * 16 ^ hs.length := Nat.mul_le_mul_right _ (by omega)
      _ = (n + 1) * 16 ^ (hs.length + 1) := by rw [Nat.mul_assoc, Nat.pow_succ']

theorem hexValue_lt {hs : List Nat} (h : ∀ c ∈ hs, HexDigit c) : hexValue hs < 16 ^ hs.length := by
  have hlt := foldl_hex_lt h 0
  rwa [Nat.zero_add, Nat.one_mul] at hlt

theorem hexEscape?_le {v : Nat} (h : hexEscape? t = some (v, n)) : v ≤ 0x10FFFF := by
  rw [hexEscape?] at h
  split at h
  · have hlt := hexValue_lt (‹(t.take 2).length = 2 ∧ _›).2
    rw [(‹(t.take 2).length = 2 ∧ _›).1] at hlt
    cases h
    omega
  · cases h

theorem lowSurrogate?_le {v : Nat} (h : lowSurrogate? t = some v) : v ≤ 0xDFFF := by
  rw [lowSurrogate?] at h
  split at h
  · rename_i hlow
    cases h
    exact hlow.2.2.2.2
  · cases h

theorem unicodeEscape?_le {v : Nat} (h : unicodeEscape? t = some (v, n)) : v ≤ 0x10FFFF := by
  rw [unicodeEscape?] at h
  split at h
  · rename_i hdigits
    have hlt := hexValue_lt hdigits.2
    rw [hdigits.1] at hlt
    split at h
    · rename_i hhigh
      obtain ⟨ls, hlow, heq⟩ := Option.map_eq_some_iff.mp h
      have hle := lowSurrogate?_le hlow
      have hv : 0x10000 + (hexValue (t.take 4) - 0xD800) * 0x400 + (ls - 0xDC00) = v :=
        (Prod.mk.inj heq).1
      omega
    · have hv := (Prod.mk.inj (Option.some.inj h)).1
      omega
  · cases h

theorem singleEscapeCharacter_le {v : Nat} (h : singleEscapeCharacter c = some v) : v ≤ 0x10FFFF := by
  unfold singleEscapeCharacter at h
  split at h <;> simp only [Option.some.injEq, reduceCtorEq] at h <;> omega

theorem characterEscape?_le {v : Nat} (h : characterEscape? c = some v) (hc : c ≤ 0x10FFFF) :
    v ≤ 0x10FFFF := by
  rw [characterEscape?] at h
  cases hsingle : singleEscapeCharacter c with
  | some w =>
    rw [hsingle] at h
    cases h
    exact singleEscapeCharacter_le hsingle
  | none =>
    rw [hsingle] at h
    dsimp only at h
    split at h
    · cases h
    · cases h
      exact hc

theorem escapeSequence?_le {v : Nat} (h : escapeSequence? t = some (v, n))
    (ht : ∀ c ∈ t, c ≤ 0x10FFFF) : v ≤ 0x10FFFF := by
  cases t with
  | nil => cases h
  | cons c t =>
    rw [escapeSequence?] at h
    split at h
    · cases h
      exact characterEscape?_le ‹_› (ht c List.mem_cons_self)
    split at h
    · split at h
      · cases h
      · cases h
        exact Nat.zero_le _
    split at h
    · obtain ⟨p, hp, heq⟩ := Option.map_eq_some_iff.mp h
      cases heq
      exact hexEscape?_le hp
    split at h
    · obtain ⟨p, hp, heq⟩ := Option.map_eq_some_iff.mp h
      cases heq
      exact unicodeEscape?_le hp
    · cases h

/-! ## A string that is filled -/

/-- The first code points of an allocation of `len` cells. -/
structure Filled (so : UnicodeString) (vs : List Nat) : Prop where
  alloc : so.s.length = so.len * so.width.bytes
  lt : ∀ b ∈ so.s, b < 256
  fits : vs.length ≤ so.len
  cells : ∀ j v, vs[j]? = some v → Cells.read so.width.bytes j so.s = some v

section

variable {junk : Nat → Nat} {so : UnicodeString} {vs : List Nat} {cp : Nat}

theorem malloc_lt (n : Nat) : ∀ b ∈ malloc junk n, b < 256 := by
  intro b hb
  obtain ⟨i, -, rfl⟩ := List.mem_map.mp hb
  exact Nat.mod_lt _ (by decide)

theorem length_malloc (n : Nat) : (malloc junk n).length = n := by
  rw [malloc, List.length_map, List.length_range]

theorem filled_malloc (w : Width) (len : Nat) : Filled ⟨w, len, malloc junk (len * w.bytes)⟩ [] :=
  ⟨length_malloc _, malloc_lt _, Nat.zero_le _, fun _ _ h => nomatch h⟩

/-- Wider cells hold the same code points. -/
theorem Filled.widen (h : Filled so vs) (junk : Nat → Nat) {w : Width}
    (hw : so.width.bytes ≤ w.bytes) :
    ∃ so', widenUnicodeString junk so w = .ok so' ∧ so'.width = w ∧ so'.len = so.len ∧
      Filled so' vs := by
  have hlen : so.s.length ≤ so.len * w.bytes := h.alloc ▸ Nat.mul_le_mul_left so.len hw
  have hrealloc : realloc junk so.s (so.len * w.bytes) =
      so.s ++ (malloc junk (so.len * w.bytes)).drop so.s.length := by
    rw [realloc, List.take_of_length_le hlen]
  have hsize : (realloc junk so.s (so.len * w.bytes)).length = so.len * w.bytes := by
    rw [hrealloc, List.length_append, List.length_drop, length_malloc]
    omega
  have hlt : ∀ b ∈ realloc junk so.s (so.len * w.bytes), b < 256 := by
    rw [hrealloc]
    intro b hb
    rcases List.mem_append.mp hb with hb | hb
    · exact h.lt b hb
    · exact malloc_lt _ b (List.mem_of_mem_drop hb)
  obtain ⟨m, hm, hmlen, hmlt, hread, -⟩ :=
    Cells.widen_spec (n := so.len) hw hlt (Nat.le_of_eq hsize.symm)
  refine ⟨⟨w, so.len, m⟩, ?_, rfl, rfl, hmlen.trans hsize, hmlt, h.fits, fun j v hj => ?_⟩
  · rw [widenUnicodeString, hm]
  · have hjlt : j < so.len := Nat.lt_of_lt_of_le (List.getElem?_eq_some_iff.mp hj).1 h.fits
    have hcell : j * so.width.bytes + so.width.bytes ≤ so.s.length := by
      rw [h.alloc, ← Nat.succ_mul]
      exact Nat.mul_le_mul_right _ hjlt
    rw [hread j hjlt, hrealloc, Cells.read_append hcell]
    exact h.cells j v hj

theorem Width.bytes_le_four (w : Width) : w.bytes ≤ Width.fourByte.bytes := by
  cases w <;> decide

/-- The allocation that a code point is stored in. -/
theorem Filled.wide_enough (h : Filled so vs) (junk : Nat → Nat) (hcp : cp ≤ 0x10FFFF) :
    ∃ so', (if cp ≥ 0x10000 ∧ so.width ≠ .fourByte then widenUnicodeString junk so .fourByte
        else if cp ≥ 0x100 ∧ so.width.bytes < 2 then widenUnicodeString junk so .twoByte
        else .ok so) = .ok so' ∧
      so'.len = so.len ∧ Filled so' vs ∧ cp < 256 ^ so'.width.bytes := by
  split
  · obtain ⟨so', hrun, hwidth, hlen, hfilled⟩ := h.widen junk so.width.bytes_le_four
    refine ⟨so', hrun, hlen, hfilled, ?_⟩
    rw [hwidth, Width.bytes]
    omega
  · rename_i hfour
    split
    · obtain ⟨so', hrun, hwidth, hlen, hfilled⟩ := h.widen junk (w := .twoByte)
        (by rw [Width.bytes.eq_2]; omega)
      refine ⟨so', hrun, hlen, hfilled, ?_⟩
      have htwo : so.width ≠ .fourByte := by
        intro hw
        have hnarrow := (‹cp ≥ 0x100 ∧ _›).2
        rw [hw] at hnarrow
        exact absurd hnarrow (by decide)
      rw [hwidth, Width.bytes]
      have hsmall := mt (And.intro · htwo) hfour
      omega
    · rename_i htwo
      refine ⟨so, rfl, rfl, h, ?_⟩
      cases hw : so.width <;> rw [hw] at hfour htwo <;> rw [Width.bytes]
      · have hsmall : ¬ cp ≥ 0x100 := fun hge => htwo ⟨hge, by decide⟩
        omega
      · have hsmall : ¬ cp ≥ 0x10000 := fun hge => hfour ⟨hge, by decide⟩
        omega
      · omega

/-- `json5_unicode_string_set` of the next code point -/
theorem Filled.set (h : Filled so vs) (junk : Nat → Nat) (hlt : vs.length < so.len)
    (hcp : cp ≤ 0x10FFFF) :
    ∃ so', so.set junk vs.length cp = .ok so' ∧ so'.len = so.len ∧ Filled so' (vs ++ [cp]) := by
  obtain ⟨so₁, hrun, hlen, h₁, hcell⟩ := h.wide_enough junk hcp
  have hfits : vs.length * so₁.width.bytes + so₁.width.bytes ≤ so₁.s.length := by
    rw [h₁.alloc, ← Nat.succ_mul, hlen]
    exact Nat.mul_le_mul_right _ hlt
  obtain ⟨m, hm⟩ : ∃ m, Cells.write so₁.width.bytes vs.length cp so₁.s = some m := ⟨_, if_pos hfits⟩
  refine ⟨{ so₁ with s := m }, ?_, hlen, (Cells.length_write hm).trans h₁.alloc,
    Cells.write_lt h₁.lt hm, ?_, fun j v hj => ?_⟩
  · rw [UnicodeString.set, if_neg (Nat.not_le.mpr hlt), hrun, ok_bind, hm]
  · rw [List.length_append, List.length_singleton, hlen]
    exact hlt
  · rcases Nat.lt_trichotomy j vs.length with hjlt | rfl | hgt
    · rw [List.getElem?_append_left hjlt] at hj
      exact (Cells.read_write_ne hm (Nat.ne_of_lt hjlt)).trans (h₁.cells j v hj)
    · rw [List.getElem?_concat_length] at hj
      cases hj
      exact Cells.read_write_self hcell hm
    · rw [List.getElem?_eq_none (by rw [List.length_append, List.length_singleton]; omega)] at hj
      cases hj

/-- A string cut to what was stored in it. -/
theorem Filled.at (h : Filled so vs) (hsize : so.len < 2 ^ 64) (hvalid : ∀ v ∈ vs, v ≤ 0x10FFFF) :
    At { so with len := vs.length } 0 vs where
  bound := Nat.zero_add _
  size := Nat.lt_of_le_of_lt h.fits hsize
  lt := h.lt
  read := fun j v hj => by
    rw [Nat.zero_add]
    exact h.cells j v hj
  valid := hvalid

end

end Idio.Json5
