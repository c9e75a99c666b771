/-
  Handle/Input.lean --- input from string handles.

  A handle has a slot for one character that has been looked at.  `peek-char` gets a
  character and puts it back there, `read-line` gets characters from there first, and
  the loop of `read-char` gets bytes: it takes what is in the slot for one.  The
  position goes up with every byte, and goes down by one when a character is put back.

  The reference goes over the content character by character: the sequences of the
  UTF-8 decoder, each with its bytes.
-/
import Idio.String.Encode

set_option autoImplicit false

namespace Idio

/-- `EOF` -/
def EOF : Int := -1

/-- An input string handle.  `ptr` is `IDIO_STRING_HANDLE_PTR` less `IDIO_STRING_HANDLE_BUF`. -/
structure InputHandle where
  content : List UInt8
  ptr : Nat
  eof : Bool
  lc : Int
  line : Nat
  pos : Nat
  deriving DecidableEq, Repr

/-- `open-input-string`, with the bytes of the string -/
def openInputString (content : List UInt8) : InputHandle := ⟨content, 0, false, EOF, 1, 0⟩

/-- `(int) *(IDIO_STRING_HANDLE_PTR (sh))`, of a signed `char` -/
def charInt (b : UInt8) : Int := if b.toNat < 128 then b.toNat else b.toNat - 256

/-- `idio_getb_string_handle` -/
def getbStringHandle (sh : InputHandle) : Int × InputHandle :=
  match sh.content[sh.ptr]? with
  | some b => (charInt b, { sh with ptr := sh.ptr + 1 })
  | none => (EOF, { sh with eof := true })

/-- One more line at a newline, if the number of lines is known. -/
def InputHandle.bumpLine (h : InputHandle) (r : Int) : InputHandle :=
  if r = 0x0a ∧ h.line ≠ 0 then { h with line := h.line + 1 } else h

/-- `idio_getb_handle` -/
def getbHandle (h : InputHandle) : Int × InputHandle :=
  let (r, h) := if EOF ≠ h.lc then (h.lc, { h with lc := EOF }) else getbStringHandle h
  if h.eof then (r, h)
  else
    let h := h.bumpLine r
    (r, { h with pos := h.pos + 1 })

/-- `(uint8_t) ucv` -/
def uint8OfInt (ucv : Int) : UInt8 := UInt8.ofNat (ucv % 256).toNat

/-- The loop of `idio_read_character_int` with `IDIO_READ_CHARACTER_SIMPLE`. -/
def readCharacterLoop : Nat → Nat → Nat → InputHandle → Result (Int × InputHandle)
  | 0, _, _, _ => .error .diverges
  | fuel + 1, state, codepoint, h =>
      let (ucv, h) := getbHandle h
      if h.eof then .ok (EOF, h)
      else
        let (state, codepoint) := utf8Decode state codepoint (uint8OfInt ucv)
        if utf8Accept = state then .ok (codepoint, h)
        else if utf8Reject = state then .ok (0xFFFD, h)
        else readCharacterLoop fuel state codepoint h

/-- `idio_read_character_int`; `codepoint` is not read before it is written. -/
def readCharacterInt (h : InputHandle) : Result (Int × InputHandle) :=
  readCharacterLoop (h.content.length - h.ptr + 2) utf8Accept 0 h

/-- `idio_getc_handle` -/
def getcHandle (h : InputHandle) : Result (Int × InputHandle) :=
  if EOF ≠ h.lc then
    let r := h.lc
    let h := ({ h with lc := EOF } : InputHandle).bumpLine r
    .ok (r, { h with pos := h.pos + 1 })
  else readCharacterInt h

/-- `idio_ungetc_handle` -/
def ungetcHandle (h : InputHandle) (c : Int) : Result InputHandle :=
  if EOF ≠ h.lc then .error (.lookahead h.lc)
  else
    let h := { h with lc := c }
    let h := if c = 0x0a ∧ h.line ≠ 0 then { h with line := h.line - 1 } else h
    .ok (if h.pos ≠ 0 then { h with pos := h.pos - 1 } else h)

/-- What an operation returns: `IDIO_UNICODE` of an `int`, `#<eof>` or the code points of a
string. -/
inductive ReadResult where
  | unicode (c : Int)
  | eof
  | string (cps : List Nat)
  deriving DecidableEq, Repr

/-- `peek-char` by `idio_peek_handle` -/
def peekChar (h : InputHandle) : Result (ReadResult × InputHandle) := do
  let (c, h) ← getcHandle h
  let h ← ungetcHandle h c
  return (.unicode c, h)

/-- `read-char` by `idio_read_character` -/
def readChar (h : InputHandle) : Result (ReadResult × InputHandle) := do
  let (codepoint, h) ← readCharacterInt h
  return (if codepoint = EOF then .eof else .unicode codepoint, h)

/-- The loop of `idio_read_line`; `osh` is what the output string handle holds. -/
def readLineLoop : Nat → List Nat → InputHandle → Result (List Nat × InputHandle)
  | 0, _, _ => .error .diverges
  | fuel + 1, osh, h => do
      let (c, h) ← getcHandle h
      if h.eof ∨ c = 0x0a then return (osh, h)
      else readLineLoop fuel (osh ++ codePointBytes c.toNat) h

/-- `idio_read_line` -/
def readLine (h : InputHandle) : Result (ReadResult × InputHandle) := do
  let (osh, h) ← readLineLoop (h.content.length - h.ptr + 2) [] h
  let so ← stringCLen (osh.map UInt8.ofNat)
  return (.string so.codePoints, h)

inductive ReadOp where
  | peekChar
  | readChar
  | readLine
  deriving DecidableEq, Repr

def ReadOp.run (h : InputHandle) : ReadOp → Result (ReadResult × InputHandle)
  | .peekChar => Idio.peekChar h
  | .readChar => Idio.readChar h
  | .readLine => Idio.readLine h

/-- What the operations return one after the other, and the handle. -/
def inputRun (h : InputHandle) : List ReadOp → Result (List ReadResult × InputHandle)
  | [] => .ok ([], h)
  | op :: ops => do
      let (r, h) ← op.run h
      let (rs, h) ← inputRun h ops
      return (r :: rs, h)

/-! ## The reference -/

/-- A character with its bytes; `cut` says that the content ends inside of it. -/
structure TextUnit where
  code : Nat
  bytes : List UInt8
  cut : Bool
  deriving DecidableEq, Repr

open Utf8 in
/-- The characters that bytes are, one after the other. -/
inductive Units : List UInt8 → List TextUnit → Prop where
  | nil : Units [] []
  | sequence {x bs : List UInt8} {c : Option Char} {us : List TextUnit}
      (hc : Starts (x ++ bs) c bs) (h : Units bs us) :
      Units (x ++ bs) (⟨(c.map Char.toNat).getD replacement, x, false⟩ :: us)
  | inside {x : List UInt8} (h : Incomplete x) (hne : x ≠ []) : Units x [⟨replacement, x, true⟩]

/-- These characters, by the decoder. -/
def unitsOf (bs : List UInt8) : List TextUnit :=
  if _h : bs = [] then []
  else
    let stop := decodeOne utf8Accept 0 bs
    let x := bs.take (bs.length - stop.rest.length)
    if stop.state = utf8Accept ∨ stop.state = utf8Reject then
      ⟨stop.codepoint, x, false⟩ :: unitsOf stop.rest
    else [⟨Utf8.replacement, x, true⟩]
termination_by bs.length
decreasing_by exact decodeOne_rest_lt _ _ ‹_›

/-- The characters that have not been read, and the position and the line of the first. -/
structure Reading where
  units : List TextUnit
  pos : Nat
  line : Nat
  deriving DecidableEq, Repr

/-- After some of the characters. -/
def Reading.after (s : Reading) (taken : List TextUnit) : Reading where
  units := s.units.drop taken.length
  pos := s.pos + (taken.flatMap TextUnit.bytes).length
  line := if s.line = 0 then 0 else s.line + (taken.flatMap TextUnit.bytes).count 0x0a

/-- The characters of the line. -/
def Reading.lineUnits (s : Reading) : List TextUnit := s.units.takeWhile fun u => u.code != 0x0a

/-- An operation on the characters: to look at one changes nothing, and a line is read with
its newline. -/
def ReadOp.meaning (s : Reading) : ReadOp → ReadResult × Reading
  | .peekChar =>
      match s.units with
      | u :: _ => (.unicode u.code, s)
      | [] => (.eof, s)
  | .readChar =>
      match s.units with
      | u :: _ => (.unicode u.code, s.after [u])
      | [] => (.eof, s)
  | .readLine =>
      (.string (s.lineUnits.map TextUnit.code), s.after (s.units.take (s.lineUnits.length + 1)))

def readingRun (s : Reading) : List ReadOp → List ReadResult × Reading
  | [] => ([], s)
  | op :: ops =>
      let (r, s) := op.meaning s
      let (rs, s) := readingRun s ops
      (r :: rs, s)

/-- What an operation must find: the character to look at is there and is a single byte, and
nothing that is to be read is cut off. -/
def ReadOp.Clear (s : Reading) : ReadOp → Prop
  | .peekChar => ∃ u ∈ s.units.head?, u.bytes.length = 1 ∧ u.cut = false
  | .readChar => ∀ u ∈ s.units.head?, u.cut = false
  | .readLine => ∀ u ∈ s.lineUnits, u.cut = false

def ClearAll : Reading → List ReadOp → Prop
  | _, [] => True
  | s, op :: ops => op.Clear s ∧ ClearAll (op.meaning s).2 ops

instance (s : Reading) (op : ReadOp) : Decidable (op.Clear s) :=
  match op with
  | .peekChar => inferInstanceAs (Decidable (∃ u ∈ s.units.head?, u.bytes.length = 1 ∧ u.cut = false))
  | .readChar => inferInstanceAs (Decidable (∀ u ∈ s.units.head?, u.cut = false))
  | .readLine => inferInstanceAs (Decidable (∀ u ∈ s.lineUnits, u.cut = false))

instance decidableClearAll : (s : Reading) → (ops : List ReadOp) → Decidable (ClearAll s ops)
  | _, [] => inferInstanceAs (Decidable True)
  | s, op :: ops =>
      have := decidableClearAll (op.meaning s).2 ops
      inferInstanceAs (Decidable (op.Clear s ∧ ClearAll (op.meaning s).2 ops))

/-! ## The characters of bytes -/

section Characters

open Utf8

variable {bs rest : List UInt8} {u : TextUnit} {us : List TextUnit}

/-- Inside of a sequence the state is neither of the two that the loop stops at. -/
theorem decodeOne_inside {x : List UInt8} {d : Due} (hx : readBytes x = some d) (hd : d.count ≠ 0)
    (htable : (d.count, d.lo, d.hi) ∈ tableStates) (h : Incomplete (x ++ bs)) :
    (decodeOne (stateOf d) d.code bs).state ≠ utf8Accept ∧
      (decodeOne (stateOf d) d.code bs).state ≠ utf8Reject := by
  have hne : x ≠ [] := by
    rintro rfl
    cases hx
  induction bs generalizing x d with
  | nil => exact stateOf_ne htable
  | cons b bs ih =>
    have hscan : readBytes (x ++ [b]) = d.next b.toNat := by
      rw [readBytes_append hne, hx, Option.bind_some, Due.after]
      cases d.next b.toNat <;> rfl
    have hdecode := utf8Decode_next (b := b) htable
    cases hnext : d.next b.toNat with
    | none => exact absurd h (Starts.illFormed (.of_next hx hd hnext) bs).not_incomplete
    | some d' =>
      rw [hnext] at hdecode hscan
      rw [List.append_cons] at h
      by_cases hd' : d'.count = 0
      · obtain ⟨c, -, hc⟩ := exists_char_of_readBytes hscan hd'
        rw [hc] at h
        exact absurd h (Starts.wellFormed c bs).not_incomplete
      · obtain ⟨haccept, hreject⟩ := stateOf_ne (hdecode.2 hd')
        rw [decodeOne, hdecode.1]
        dsimp only
        rw [if_neg (Ne.symm haccept), if_neg (Ne.symm hreject)]
        exact ih hscan hd' (hdecode.2 hd') h (List.append_ne_nil_of_left_ne_nil hne _)

theorem decodeOne_incomplete (hne : bs ≠ []) (h : Incomplete bs) :
    (decodeOne utf8Accept 0 bs).state ≠ utf8Accept ∧
      (decodeOne utf8Accept 0 bs).state ≠ utf8Reject := by
  cases bs with
  | nil => exact absurd rfl hne
  | cons b bs =>
    have hscan : readBytes [b] = first b.toNat := by
      show (first b.toNat).bind _ = _
      cases first b.toNat <;> rfl
    cases hfirst : first b.toNat with
    | none => exact absurd h (Starts.illFormed (.of_first hfirst) bs).not_incomplete
    | some d =>
      obtain ⟨hdecode, htable⟩ := utf8Decode_first_some 0 hfirst
      rw [hfirst] at hscan
      by_cases hd : d.count = 0
      · obtain ⟨c, -, hc⟩ := exists_char_of_readBytes hscan hd
        rw [← List.singleton_append, hc] at h
        exact absurd h (Starts.wellFormed c bs).not_incomplete
      · obtain ⟨haccept, hreject⟩ := stateOf_ne (htable hd)
        rw [decodeOne, hdecode]
        dsimp only
        rw [if_neg (Ne.symm haccept), if_neg (Ne.symm hreject)]
        exact decodeOne_inside hscan hd (htable hd) h

theorem units_unitsOf (bs : List UInt8) : Units bs (unitsOf bs) := by
  induction hn : bs.length using Nat.strongRecOn generalizing bs with
  | ind n ih =>
    rw [unitsOf]
    by_cases hbs : bs = []
    · rw [dif_pos hbs, hbs]
      exact .nil
    rw [dif_neg hbs]
    have hstops := decodeOne_stops 0 hbs
    have hcut := decodeOne_incomplete hbs
    dsimp only
    generalize decodeOne utf8Accept 0 bs = stop at hstops hcut
    have hsequence {c : Option Char} {rest : List UInt8} (h : Starts bs c rest) :
        Units bs (⟨(c.map Char.toNat).getD replacement, bs.take (bs.length - rest.length), false⟩ ::
          unitsOf rest) := by
      have hunits := ih _ (hn ▸ h.length_lt) rest rfl
      obtain ⟨x, -, rfl⟩ := h.whole
      rw [List.length_append, Nat.add_sub_cancel, List.take_left]
      exact .sequence h hunits
    cases hstops with
    | accept h =>
      rw [if_pos (.inl rfl)]
      exact hsequence h
    | reject h =>
      rw [if_pos (.inr rfl)]
      exact hsequence h
    | ended h =>
      rw [if_neg (not_or.mpr (hcut h)), List.length_nil, Nat.sub_zero, List.take_length]
      exact .inside h hbs

/-- They are those of the decoder. -/
theorem units_codes (h : Units bs us) :
    ∃ cs r, Falls bs cs r ∧ us.map TextUnit.code = codePoints cs r := by
  induction h with
  | nil => exact ⟨[], [], .rest (incomplete_iff.mpr (.inl rfl)), rfl⟩
  | sequence hc _ ih =>
    obtain ⟨cs, r, hfalls, hcodes⟩ := ih
    exact ⟨_, r, .sequence hc hfalls, congrArg (List.cons _) hcodes⟩
  | @inside x h hne =>
    refine ⟨[], x, .rest h, ?_⟩
    rw [codePoints, if_neg hne]
    rfl

/-- The first character that is not cut off. -/
theorem Units.cons (h : Units bs (u :: us)) (hcut : u.cut = false) :
    ∃ c rest, bs = u.bytes ++ rest ∧ Starts bs c rest ∧
      u.code = (c.map Char.toNat).getD replacement ∧ Units rest us := by
  cases h with
  | sequence hc h => exact ⟨_, _, rfl, hc, rfl, h⟩
  | inside => cases hcut

theorem Units.of_nil (h : Units bs []) : bs = [] := by
  cases h
  rfl

/-- A character is one that a string can have, and one that is cut off is no newline. -/
theorem Units.code (h : Units bs us) :
    ∀ u ∈ us, validCodePoint u.code ∧ ¬ Surrogate u.code ∧ (u.code = 0x0a → u.cut = false) := by
  have hreplacement : validCodePoint replacement ∧ ¬ Surrogate replacement := by decide
  induction h with
  | nil => exact fun u hu => absurd hu List.not_mem_nil
  | @sequence x bs c us hc _ ih =>
    rw [List.forall_mem_cons]
    refine ⟨?_, ih⟩
    cases c with
    | none => exact ⟨hreplacement.1, hreplacement.2, fun _ => rfl⟩
    | some c =>
      have hvalid : c.toNat < 0xD800 ∨ 0xDFFF < c.toNat ∧ c.toNat < 0x110000 := c.valid
      refine ⟨decide_eq_true (show c.toNat ≤ 0x10FFFF by omega), ?_, fun _ => rfl⟩
      rintro ⟨hlow, hhigh⟩
      have hlow' : 0xD800 ≤ c.toNat := hlow
      have hhigh' : c.toNat ≤ 0xDFFF := hhigh
      omega
  | inside =>
    rw [List.forall_mem_singleton]
    exact ⟨hreplacement.1, hreplacement.2, fun h => absurd (show replacement = 0x0a from h) (by decide)⟩

/-- A character has bytes. -/
theorem Units.length_le (h : Units bs us) : us.length ≤ bs.length := by
  induction h with
  | nil => exact Nat.le_refl _
  | sequence hc _ ih =>
    have hlt := hc.length_lt
    rw [List.length_cons]
    omega
  | inside _ hne =>
    rw [List.length_singleton]
    exact List.length_pos_iff.mpr hne

/-- A character of one byte is that byte, or the byte is ill-formed. -/
theorem single_byte {b : UInt8} {c : Option Char} (h : Starts (b :: rest) c rest) :
    b.toNat < 0x80 ∧ (c.map Char.toNat).getD replacement = b.toNat ∨
      0x80 ≤ b.toNat ∧ (c.map Char.toNat).getD replacement = 0xFFFD := by
  have hlow : b.toNat < 0x80 → ∃ ch : Char, ch.toNat = b.toNat ∧ String.utf8EncodeChar ch = [b] := by
    intro hb
    obtain ⟨ch, hch⟩ := exists_char_toNat (n := b.toNat) (.inl (by omega))
    refine ⟨ch, hch, ?_⟩
    rw [← codePointBytes_encode, show ch.toNat = b.toNat from hch, codePointBytes_eq,
      if_neg (by omega), if_neg (by omega), if_neg (by omega), Nat.mod_eq_of_lt (by omega)]
    exact congrArg (fun b => [b]) UInt8.ofNat_toNat
  generalize hbs : b :: rest = bs at h
  cases h with
  | wellFormed ch =>
    left
    have hlen := congrArg List.length hbs
    rw [List.length_cons, List.length_append, String.length_utf8EncodeChar] at hlen
    have hval : ch.val.toNat ≤ 127 :=
      UInt32.le_iff_toNat_le.mp (Char.utf8Size_eq_one_iff.mp (by omega))
    have hcode : ch.toNat = ch.val.toNat := rfl
    rw [← codePointBytes_encode, codePointBytes_eq, if_neg (by omega), if_neg (by omega),
      if_neg (by omega), Nat.mod_eq_of_lt (by omega)] at hbs
    have hb : b = UInt8.ofNat ch.toNat := (List.cons.inj hbs).1
    rw [hb, toNat_ofNat (by omega)]
    exact ⟨by omega, rfl⟩
  | @illFormed x b' hx =>
    right
    have hlen := congrArg List.length hbs
    rw [List.length_cons, List.length_append, List.length_cons] at hlen
    have hnil : x = [] := List.length_eq_zero_iff.mp (by omega)
    subst hnil
    obtain ⟨rfl, -⟩ := List.cons.inj hbs
    refine ⟨Nat.not_lt.mp fun hb => ?_, rfl⟩
    obtain ⟨ch, -, hch⟩ := hlow hb
    exact hx.notWellFormed ⟨ch, hch.symm⟩

end Characters

/-! ## Getting characters -/

section Getting

variable {h h' : InputHandle} {s : Reading} {u : TextUnit} {us : List TextUnit}

/-- After some bytes. -/
def InputHandle.advance (h : InputHandle) (x : List UInt8) : InputHandle :=
  { h with
    ptr := h.ptr + x.length
    pos := h.pos + x.length
    line := if h.line = 0 then 0 else h.line + x.count 0x0a }

theorem advance_advance (h : InputHandle) (x y : List UInt8) :
    (h.advance x).advance y = h.advance (x ++ y) := by
  simp only [InputHandle.advance, List.length_append, List.count_append, Nat.add_assoc]
  by_cases hline : h.line = 0
  · simp only [hline, if_true]
  · have hne : h.line + List.count 0x0a x ≠ 0 := by omega
    simp only [hline, hne, if_false, Nat.add_assoc]

theorem charInt_eq_newline (b : UInt8) : charInt b = 0x0a ↔ b = 0x0a := by
  have hb := b.toNat_lt
  rw [← UInt8.toNat_inj, charInt]
  show _ ↔ b.toNat = 10
  split <;> omega

theorem uint8OfInt_charInt (b : UInt8) : uint8OfInt (charInt b) = b := by
  have hb := b.toNat_lt
  have hmod : (charInt b % 256).toNat = b.toNat := by
    rw [charInt]
    split <;> omega
  rw [uint8OfInt, hmod, UInt8.ofNat_toNat]

/-- A byte of the content. -/
theorem getbHandle_cons {b : UInt8} {bs : List UInt8} (hlc : h.lc = EOF) (heof : h.eof = false)
    (hrest : h.content.drop h.ptr = b :: bs) :
    getbHandle h = (charInt b, h.advance [b]) ∧ (h.advance [b]).content.drop (h.advance [b]).ptr = bs := by
  have hget : h.content[h.ptr]? = some b := by
    rw [← List.head?_drop, hrest]
    rfl
  constructor
  · rw [getbHandle, if_neg (not_not.mpr hlc.symm), getbStringHandle, hget]
    dsimp only
    rw [if_neg (ne_true_of_eq_false heof), InputHandle.bumpLine, InputHandle.advance]
    by_cases hb : b = 0x0a
    · subst hb
      by_cases hline : h.line = 0
      · simp [hline, charInt]
      · simp [hline, charInt]
    · have hne : ¬ charInt b = 0x0a := fun h => hb ((charInt_eq_newline b).mp h)
      simp [hb, hne]
  · show h.content.drop (h.ptr + 1) = bs
    rw [← List.drop_drop, hrest]
    rfl

/-- At the end of the content. -/
theorem getbHandle_nil (hlc : h.lc = EOF) (hrest : h.content.drop h.ptr = []) :
    getbHandle h = (EOF, { h with eof := true }) := by
  have hget : h.content[h.ptr]? = none := by
    rw [← List.head?_drop, hrest]
    rfl
  rw [getbHandle, if_neg (not_not.mpr hlc.symm), getbStringHandle, hget]
  rfl

/-- The loop that reads a character goes over the bytes as the decoder does. -/
theorem readCharacterLoop_spec {fuel state codepoint : Nat} {bs : List UInt8} (hlc : h.lc = EOF)
    (heof : h.eof = false) (hrest : h.content.drop h.ptr = bs) (hfuel : bs.length < fuel)
    (hstart : bs ≠ [] ∨ state ≠ utf8Accept ∧ state ≠ utf8Reject) :
    let stop := decodeOne state codepoint bs
    ∃ x, bs = x ++ stop.rest ∧
      if stop.state = utf8Accept ∨ stop.state = utf8Reject then
        readCharacterLoop fuel state codepoint h = .ok (stop.codepoint, h.advance x)
      else readCharacterLoop fuel state codepoint h = .ok (EOF, { h.advance x with eof := true }) := by
  induction bs generalizing fuel state codepoint h with
  | nil =>
    obtain ⟨fuel, rfl⟩ := Nat.exists_eq_succ_of_ne_zero (Nat.ne_of_gt hfuel)
    obtain ⟨haccept, hreject⟩ := hstart.resolve_left (not_not.mpr rfl)
    refine ⟨[], rfl, ?_⟩
    rw [decodeOne, if_neg (not_or.mpr ⟨haccept, hreject⟩), readCharacterLoop, getbHandle_nil hlc hrest]
    dsimp only
    rw [if_pos rfl, InputHandle.advance]
    by_cases hline : h.line = 0
    · simp [hline]
    · simp [hline]
  | cons b bs ih =>
    obtain ⟨fuel, rfl⟩ := Nat.exists_eq_succ_of_ne_zero (Nat.ne_zero_of_lt hfuel)
    obtain ⟨hgetb, hdrop⟩ := getbHandle_cons hlc heof hrest
    rw [List.length_cons] at hfuel
    rw [decodeOne, readCharacterLoop, hgetb]
    dsimp only
    rw [if_neg (show ¬ (h.advance [b]).eof = true from ne_true_of_eq_false heof), uint8OfInt_charInt]
    generalize utf8Decode state codepoint b = r
    obtain ⟨state, codepoint⟩ := r
    dsimp only
    by_cases haccept : utf8Accept = state
    · rw [if_pos haccept, if_pos haccept]
      exact ⟨[b], rfl, by rw [if_pos (.inl haccept.symm)]⟩
    rw [if_neg haccept, if_neg haccept]
    by_cases hreject : utf8Reject = state
    · rw [if_pos hreject, if_pos hreject]
      exact ⟨[b], rfl, by rw [if_pos (.inr hreject.symm)]; rfl⟩
    rw [if_neg hreject, if_neg hreject]
    obtain ⟨x, hx, hrun⟩ := @ih (h.advance [b]) fuel _ _ hlc heof hdrop (by omega)
      (.inr ⟨Ne.symm haccept, Ne.symm hreject⟩)
    refine ⟨b :: x, congrArg (List.cons b) hx, ?_⟩
    rw [advance_advance] at hrun
    exact hrun

/-- A handle that has nothing in the slot, and what is left to read. -/
structure Direct (h : InputHandle) (s : Reading) : Prop where
  lc : h.lc = EOF
  units : Units (h.content.drop h.ptr) s.units
  atEnd : h.eof = true → s.units = []
  line : h.line = s.line
  pos : h.pos = s.pos

/-- A handle that has a character of one byte in the slot. -/
structure Held (h : InputHandle) (s : Reading) : Prop where
  slot : ∃ u us b, s.units = u :: us ∧ u.bytes = [b] ∧ u.cut = false ∧ h.lc = u.code ∧
    Units (h.content.drop h.ptr) us ∧
      (b.toNat < 0x80 ∧ u.code = b.toNat ∨ 0x80 ≤ b.toNat ∧ u.code = 0xFFFD)
  notAtEnd : h.eof = false
  line : h.line = s.line
  pos : h.pos = s.pos

/-- A function that gets the next character, unless it is cut off. -/
structure Gets (f : InputHandle → Result (Int × InputHandle)) (h : InputHandle) (s : Reading) :
    Prop where
  next : ∀ u us, s.units = u :: us → u.cut = false →
    ∃ h', f h = .ok ((u.code : Int), h') ∧ Direct h' (s.after [u]) ∧ h'.eof = false
  done : s.units = [] → ∃ h', f h = .ok (EOF, h') ∧ Direct h' s ∧ h'.eof = true

theorem after_single (s : Reading) (hs : s.units = u :: us) :
    s.after [u] = ⟨us, s.pos + u.bytes.length,
      if s.line = 0 then 0 else s.line + u.bytes.count 0x0a⟩ := by
  rw [Reading.after, hs]
  simp

/-- With nothing in the slot, the bytes of a character are read. -/
theorem readCharacterInt_direct (hd : Direct h s) : Gets readCharacterInt h s := by
  refine ⟨fun u us hs hcut => ?_, fun hs => ?_⟩
  · have hunits := hd.units
    rw [hs] at hunits
    obtain ⟨c, rest, hbs, hstarts, hcode, hus⟩ := hunits.cons hcut
    have heof : h.eof = false := by
      by_contra htrue
      rw [hd.atEnd (Bool.eq_true_of_not_eq_false htrue)] at hs
      cases hs
    have hne : h.content.drop h.ptr ≠ [] := by
      intro hnil
      rw [hnil] at hstarts
      exact hstarts.not_incomplete (Utf8.incomplete_iff.mpr (.inl rfl))
    obtain ⟨x, hx, hrun⟩ := @readCharacterLoop_spec _ (h.content.length - h.ptr + 2)
      utf8Accept 0 _ hd.lc heof rfl (by rw [List.length_drop]; omega) (.inl hne)
    have hstops := decodeOne_stops 0 hne
    have hgot : readCharacterInt h = .ok ((u.code : Int), h.advance u.bytes) := by
      rw [readCharacterInt]
      generalize decodeOne utf8Accept 0 (h.content.drop h.ptr) = stop at hx hrun hstops
      cases hstops with
      | accept hstarts' =>
        obtain ⟨rfl, rfl⟩ := hstarts.unique hstarts'
        rw [if_pos (.inl rfl)] at hrun
        rw [hrun, hcode, List.append_cancel_right (hx.symm.trans hbs)]
        rfl
      | reject hstarts' =>
        obtain ⟨rfl, rfl⟩ := hstarts.unique hstarts'
        rw [if_pos (.inr rfl)] at hrun
        rw [hrun, hcode, List.append_cancel_right (hx.symm.trans hbs)]
        rfl
      | ended hinside => exact absurd hinside hstarts.not_incomplete
    refine ⟨h.advance u.bytes, hgot, ?_, heof⟩
    rw [after_single s hs, ← hd.pos, ← hd.line]
    refine ⟨hd.lc, ?_, fun htrue => absurd htrue (ne_true_of_eq_false heof), rfl, rfl⟩
    show Units (h.content.drop (h.ptr + u.bytes.length)) us
    rw [← List.drop_drop, hbs, List.drop_left]
    exact hus
  · have hrest : h.content.drop h.ptr = [] := by
      have hunits := hd.units
      rw [hs] at hunits
      exact hunits.of_nil
    refine ⟨{ h with eof := true }, ?_, ?_, rfl⟩
    · rw [readCharacterInt, readCharacterLoop, getbHandle_nil hd.lc hrest]
      rfl
    · exact ⟨hd.lc, hd.units, fun _ => hs, hd.line, hd.pos⟩

/-- Without what is in the slot, behind it. -/
def InputHandle.release (h : InputHandle) : InputHandle :=
  { h with
    lc := EOF
    line := if h.lc = 0x0a ∧ h.line ≠ 0 then h.line + 1 else h.line
    pos := h.pos + 1 }

theorem getbHandle_slot (hlc : EOF ≠ h.lc) (heof : h.eof = false) :
    getbHandle h = (h.lc, h.release) := by
  rw [getbHandle, if_pos hlc]
  dsimp only
  rw [if_neg (ne_true_of_eq_false heof)]
  unfold InputHandle.bumpLine InputHandle.release
  dsimp only
  split <;> rfl

theorem getcHandle_slot (hlc : EOF ≠ h.lc) : getcHandle h = .ok (h.lc, h.release) := by
  rw [getcHandle, if_pos hlc]
  unfold InputHandle.bumpLine InputHandle.release
  dsimp only
  split <;> rfl

theorem Held.lc_ne (hd : Held h s) : EOF ≠ h.lc := by
  obtain ⟨u, us, b, -, -, -, hlc, -⟩ := hd.slot
  rw [hlc, EOF]
  omega

/-- What is in the slot goes. -/
theorem Held.release (hd : Held h s) (hs : s.units = u :: us) :
    h.lc = u.code ∧ Direct h.release (s.after [u]) ∧ h.release.eof = false := by
  obtain ⟨u', us', b, hs', hbytes, -, hlc, hunits, hcode⟩ := hd.slot
  cases hs.symm.trans hs'
  have hnewline : h.lc = 0x0a ↔ b = 0x0a := by
    rw [← UInt8.toNat_inj, hlc]
    show _ ↔ b.toNat = 10
    omega
  have hline : h.release.line = if s.line = 0 then 0 else s.line + [b].count 0x0a := by
    rw [InputHandle.release, ← hd.line, List.count_singleton]
    dsimp only
    by_cases hzero : h.line = 0
    · rw [if_pos hzero, if_neg fun hbump => hbump.2 hzero, hzero]
    rw [if_neg hzero]
    by_cases hb : b = 0x0a
    · rw [if_pos ⟨hnewline.mpr hb, hzero⟩, if_pos (beq_iff_eq.mpr hb)]
    · rw [if_neg fun hbump => hb (hnewline.mp hbump.1), if_neg fun heq => hb (beq_iff_eq.mp heq)]
      rfl
  refine ⟨hlc, ?_, hd.notAtEnd⟩
  rw [after_single s hs, hbytes]
  exact ⟨rfl, hunits, fun htrue => absurd htrue (ne_true_of_eq_false hd.notAtEnd), hline,
    congrArg (· + 1) hd.pos⟩

/-- A byte below 0x80 is a character. -/
theorem utf8Decode_ascii {b : UInt8} (hb : b.toNat < 0x80) :
    utf8Decode utf8Accept 0 b = (utf8Accept, b.toNat) := by
  have hfirst : Utf8.first b.toNat = some ⟨0, 0, 0, b.toNat⟩ := by
    rw [Utf8.first, if_pos hb]
  exact (utf8Decode_first_some 0 hfirst).1

/-- What is in the slot is a byte of its own, or the byte that U+FFFD is cut down to is
ill-formed, too. -/
theorem readCharacterInt_held (hd : Held h s) : Gets readCharacterInt h s := by
  obtain ⟨u, us, b, hs, -, -, hlc, -, hcode⟩ := hd.slot
  obtain ⟨-, hdirect, heof⟩ := hd.release hs
  refine ⟨fun u' us' hs' _ => ?_, fun hs' => absurd (hs.symm.trans hs') nofun⟩
  cases hs.symm.trans hs'
  refine ⟨h.release, ?_, hdirect, heof⟩
  rw [readCharacterInt, readCharacterLoop, getbHandle_slot hd.lc_ne hd.notAtEnd]
  dsimp only
  rw [if_neg (ne_true_of_eq_false heof), hlc]
  rcases hcode with ⟨hb, hcode⟩ | ⟨-, hcode⟩
  · have hbyte : uint8OfInt (u.code : Int) = b := by
      have hchar := uint8OfInt_charInt b
      rw [charInt, if_pos hb] at hchar
      rw [hcode]
      exact hchar
    rw [hbyte, utf8Decode_ascii hb, if_pos rfl, hcode]
  · rw [hcode]
    rfl

theorem getcHandle_direct (hd : Direct h s) : Gets getcHandle h s := by
  have heq : getcHandle h = readCharacterInt h := by
    rw [getcHandle, if_neg (not_not.mpr hd.lc.symm)]
  have hgets := readCharacterInt_direct hd
  exact ⟨fun u us hs hcut => by rw [heq]; exact hgets.next u us hs hcut,
    fun hs => by rw [heq]; exact hgets.done hs⟩

theorem getcHandle_held (hd : Held h s) : Gets getcHandle h s := by
  obtain ⟨u, us, b, hs, -, -, hlc, -⟩ := hd.slot
  obtain ⟨-, hdirect, heof⟩ := hd.release hs
  refine ⟨fun u' us' hs' _ => ?_, fun hs' => absurd (hs.symm.trans hs') nofun⟩
  cases hs.symm.trans hs'
  exact ⟨h.release, by rw [getcHandle_slot hd.lc_ne, hlc], hdirect, heof⟩

/-- The handle is where the reading is. -/
def Tracks (h : InputHandle) (s : Reading) : Prop := Direct h s ∨ Held h s

theorem Tracks.readCharacterInt (hf : Tracks h s) : Gets readCharacterInt h s :=
  hf.elim readCharacterInt_direct readCharacterInt_held

theorem Tracks.getcHandle (hf : Tracks h s) : Gets getcHandle h s :=
  hf.elim getcHandle_direct getcHandle_held

/-! ## The operations -/

theorem after_nil (s : Reading) : s.after [] = s := by
  obtain ⟨units, pos, line⟩ := s
  by_cases hline : line = 0
  · simp [Reading.after, hline]
  · simp [Reading.after, hline]

theorem after_cons (s : Reading) (hs : s.units = u :: us) (taken : List TextUnit) :
    s.after (u :: taken) = (s.after [u]).after taken := by
  rw [after_single s hs, Reading.after, hs, Reading.after]
  simp only [List.flatMap_cons, List.length_cons, List.drop_succ_cons, List.length_append,
    List.count_append, Nat.add_assoc]
  by_cases hline : s.line = 0
  · simp only [hline, if_true]
  · have hne : s.line + List.count 0x0a u.bytes ≠ 0 := by omega
    simp only [hline, hne, if_false, Nat.add_assoc]

/-- What holds of the characters that are left. -/
theorem Tracks.codes (hf : Tracks h s) :
    ∀ u ∈ s.units, validCodePoint u.code ∧ ¬ Surrogate u.code ∧ (u.code = 0x0a → u.cut = false) := by
  rcases hf with hd | hd
  · exact hd.units.code
  · obtain ⟨u, us, b, hs, -, hcut, -, hunits, hcode⟩ := hd.slot
    rw [hs, List.forall_mem_cons]
    refine ⟨⟨?_, ?_, fun _ => hcut⟩, hunits.code⟩
    · exact decide_eq_true (show u.code ≤ 0x10FFFF by omega)
    · rintro ⟨hlow, hhigh⟩
      omega

/-- A single byte that is next. -/
theorem Tracks.single (hf : Tracks h s) (hs : s.units = u :: us) {b : UInt8} (hbytes : u.bytes = [b])
    (hcut : u.cut = false) :
    b.toNat < 0x80 ∧ u.code = b.toNat ∨ 0x80 ≤ b.toNat ∧ u.code = 0xFFFD := by
  rcases hf with hd | hd
  · have hunits := hd.units
    rw [hs] at hunits
    obtain ⟨c, rest, hbs, hstarts, hcode, -⟩ := hunits.cons hcut
    rw [hbs, hbytes] at hstarts
    rw [hcode]
    exact single_byte hstarts
  · obtain ⟨u', us', b', hs', hbytes', -, -, -, hcode⟩ := hd.slot
    cases hs.symm.trans hs'
    cases hbytes.symm.trans hbytes'
    exact hcode

/-- `peek-char` puts a character of one byte into the slot. -/
theorem peekChar_tracks (hf : Tracks h s) (hs : s.units = u :: us) (hbytes : u.bytes.length = 1)
    (hcut : u.cut = false) : ∃ h', peekChar h = .ok (.unicode u.code, h') ∧ Tracks h' s := by
  obtain ⟨b, hb⟩ := List.length_eq_one_iff.mp hbytes
  have hsingle := hf.single hs hb hcut
  obtain ⟨h₁, hget, hdirect, heof⟩ := hf.getcHandle.next u us hs hcut
  have hline := hdirect.line
  have hpos := hdirect.pos
  have hunits := hdirect.units
  rw [after_single s hs, hb] at hline hpos hunits
  dsimp only at hline hpos hunits
  have hnewline : (u.code : Int) = 0x0a ↔ b = 0x0a := by
    rw [← UInt8.toNat_inj]
    show _ ↔ b.toNat = 10
    omega
  have hunget : ungetcHandle h₁ u.code = .ok { h₁ with lc := u.code, line := s.line, pos := s.pos } := by
    rw [ungetcHandle, if_neg (not_not.mpr hdirect.lc.symm)]
    have hposne : h₁.pos ≠ 0 := by
      rw [hpos]
      exact Nat.succ_ne_zero _
    have hback : (if (u.code : Int) = 0x0a ∧ h₁.line ≠ 0 then h₁.line - 1 else h₁.line) = s.line := by
      rw [hline, List.count_singleton]
      by_cases hzero : s.line = 0
      · rw [if_pos hzero, if_neg fun hbump => hbump.2 rfl, hzero]
      rw [if_neg hzero]
      by_cases hb : b = 0x0a
      · rw [if_pos (beq_iff_eq.mpr hb), if_pos ⟨hnewline.mpr hb, Nat.succ_ne_zero _⟩]
        rfl
      · rw [if_neg (fun heq => hb (beq_iff_eq.mp heq)), if_neg fun hbump => hb (hnewline.mp hbump.1)]
        rfl
    have hposback : h₁.pos - 1 = s.pos := by
      rw [hpos]
      rfl
    rw [← hback, ← hposback]
    dsimp only
    rw [if_pos (show (if (u.code : Int) = 0x0a ∧ h₁.line ≠ 0 then
      ({ h₁ with lc := u.code, line := h₁.line - 1 } : InputHandle)
        else { h₁ with lc := u.code }).pos ≠ 0 by split <;> exact hposne)]
    split <;> rfl
  refine ⟨{ h₁ with lc := u.code, line := s.line, pos := s.pos }, ?_, .inr ⟨⟨u, us, b, hs, hb, hcut, rfl, hunits, hsingle⟩, heof, rfl, rfl⟩⟩
  rw [peekChar, hget, ok_bind]
  dsimp only
  rw [hunget]
  rfl

theorem readChar_tracks (hf : Tracks h s) (hclear : ∀ u ∈ s.units.head?, u.cut = false) :
    ∃ h', readChar h = .ok ((ReadOp.readChar.meaning s).1, h') ∧
      Tracks h' (ReadOp.readChar.meaning s).2 := by
  cases hs : s.units with
  | nil =>
    obtain ⟨h', hrun, hdirect, -⟩ := hf.readCharacterInt.done hs
    refine ⟨h', ?_, ?_⟩
    · rw [readChar, hrun, ReadOp.meaning, hs]
      rfl
    · rw [ReadOp.meaning, hs]
      exact .inl hdirect
  | cons u us =>
    obtain ⟨h', hrun, hdirect, -⟩ := hf.readCharacterInt.next u us hs (hclear u (by rw [hs]; rfl))
    have hne : ¬ (u.code : Int) = EOF := by
      rw [EOF]
      omega
    refine ⟨h', ?_, ?_⟩
    · rw [readChar, hrun, ReadOp.meaning, hs]
      show Except.ok (if (u.code : Int) = EOF then ReadResult.eof else .unicode u.code, h') = _
      rw [if_neg hne]
    · rw [ReadOp.meaning, hs]
      exact .inl hdirect

/-- The loop that reads a line. -/
theorem readLineLoop_tracks {fuel : Nat} {osh : List Nat} (hf : Tracks h s)
    (hclear : ∀ u ∈ s.lineUnits, u.cut = false) (hfuel : s.units.length < fuel) :
    ∃ h', readLineLoop fuel osh h =
        .ok (osh ++ (s.lineUnits.map TextUnit.code).flatMap codePointBytes, h') ∧
      Direct h' (s.after (s.units.take (s.lineUnits.length + 1))) := by
  induction fuel generalizing h s osh with
  | zero => exact absurd hfuel (Nat.not_lt_zero _)
  | succ fuel ih =>
    cases hs : s.units with
    | nil =>
      obtain ⟨h', hget, hdirect, heof⟩ := hf.getcHandle.done hs
      refine ⟨h', ?_, ?_⟩
      · rw [readLineLoop, hget, ok_bind, Reading.lineUnits, hs]
        dsimp only
        rw [if_pos (.inl heof), List.takeWhile_nil, List.map_nil, List.flatMap_nil, List.append_nil]
        rfl
      · rw [List.take_nil, after_nil]
        exact hdirect
    | cons u us =>
      by_cases hnewline : u.code = 0x0a
      · -- the newline is read and is no part of the line
        have hcut := (hf.codes u (by rw [hs]; exact List.mem_cons_self)).2.2 hnewline
        obtain ⟨h', hget, hdirect, heof⟩ := hf.getcHandle.next u us hs hcut
        have hline : s.lineUnits = [] := by
          rw [Reading.lineUnits, hs, List.takeWhile_cons_of_neg]
          rw [hnewline]
          decide
        refine ⟨h', ?_, ?_⟩
        · rw [readLineLoop, hget, ok_bind, hline]
          dsimp only
          rw [if_pos (.inr (by rw [hnewline]; rfl)), List.map_nil, List.flatMap_nil, List.append_nil]
          rfl
        · rw [hline]
          exact hdirect
      · have hline : s.lineUnits = u :: (s.after [u]).lineUnits := by
          rw [Reading.lineUnits, hs, List.takeWhile_cons_of_pos (by exact bne_iff_ne.mpr hnewline),
            after_single s hs]
          rfl
        rw [hline, List.forall_mem_cons] at hclear
        obtain ⟨h₁, hget, hdirect, heof⟩ := hf.getcHandle.next u us hs hclear.1
        have hlen : (s.after [u]).units.length < fuel := by
          rw [after_single s hs]
          rw [hs, List.length_cons] at hfuel
          exact Nat.lt_of_succ_lt_succ hfuel
        obtain ⟨h', hrun, hdirect'⟩ := @ih _ _ (osh ++ codePointBytes u.code) (.inl hdirect)
          hclear.2 hlen
        refine ⟨h', ?_, ?_⟩
        · rw [readLineLoop, hget, ok_bind]
          dsimp only
          rw [if_neg (by
            rintro (htrue | hcode)
            · exact ne_true_of_eq_false heof htrue
            · exact hnewline (Int.natCast_inj.mp hcode)), Int.toNat_natCast, hrun, hline, List.map_cons,
            List.flatMap_cons, List.append_assoc]
        · rw [hline, List.length_cons, List.take_succ_cons, after_cons s hs]
          rw [after_single s hs] at hdirect' ⊢
          exact hdirect'

theorem Tracks.length_lt (hf : Tracks h s) : s.units.length < h.content.length - h.ptr + 2 := by
  rcases hf with hd | hd
  · have hle := hd.units.length_le
    rw [List.length_drop] at hle
    omega
  · obtain ⟨u, us, b, hs, -, -, -, hunits, -⟩ := hd.slot
    have hle := hunits.length_le
    rw [List.length_drop] at hle
    rw [hs, List.length_cons]
    omega

theorem readLine_tracks (hf : Tracks h s) (hclear : ∀ u ∈ s.lineUnits, u.cut = false) :
    ∃ h', readLine h = .ok ((ReadOp.readLine.meaning s).1, h') ∧
      Tracks h' (ReadOp.readLine.meaning s).2 := by
  obtain ⟨h', hrun, hdirect⟩ := @readLineLoop_tracks _ _ _ [] hf hclear hf.length_lt
  rw [List.nil_append] at hrun
  have hcodes : ∀ c ∈ s.lineUnits.map TextUnit.code, validCodePoint c ∧ ¬ Surrogate c := by
    intro c hc
    obtain ⟨u, hu, rfl⟩ := List.mem_map.mp hc
    have hunit := hf.codes u (( List.takeWhile_prefix _).subset hu)
    exact ⟨hunit.1, hunit.2.1⟩
  -- the string handle holds the bytes of the line, which are decoded again
  obtain ⟨so, hso, hpoints, -⟩ := stringCLen_codes
    (((s.lineUnits.map TextUnit.code).flatMap codePointBytes).map UInt8.ofNat)
  have hdecoded := (@codes_bytes _ [] fun c hc => (hcodes c hc).1).mpr
    ⟨fun c hc => (hcodes c hc).2, rfl⟩
  rw [List.append_nil] at hdecoded
  refine ⟨h', ?_, .inl hdirect⟩
  rw [readLine, hrun, ok_bind]
  dsimp only
  rw [hso, ok_bind, hpoints, hdecoded]
  rfl

/-- One operation. -/
theorem run_tracks (hf : Tracks h s) {op : ReadOp} (hclear : op.Clear s) :
    ∃ h', op.run h = .ok ((op.meaning s).1, h') ∧ Tracks h' (op.meaning s).2 := by
  cases op with
  | peekChar =>
    obtain ⟨u, hu, hbytes, hcut⟩ := hclear
    cases hs : s.units with
    | nil =>
      rw [hs] at hu
      cases hu
    | cons u' us =>
      rw [hs] at hu
      cases hu
      rw [ReadOp.meaning, hs]
      exact peekChar_tracks hf hs hbytes hcut
  | readChar => exact readChar_tracks hf hclear
  | readLine => exact readLine_tracks hf hclear

theorem inputRun_tracks (hf : Tracks h s) {ops : List ReadOp} (hclear : ClearAll s ops) :
    ∃ h', inputRun h ops = .ok ((readingRun s ops).1, h') ∧ Tracks h' (readingRun s ops).2 := by
  induction ops generalizing h s with
  | nil => exact ⟨h, rfl, hf⟩
  | cons op ops ih =>
    obtain ⟨h₁, hrun, hf₁⟩ := run_tracks hf hclear.1
    obtain ⟨h', hruns, hf'⟩ := ih hf₁ hclear.2
    refine ⟨h', ?_, hf'⟩
    rw [inputRun, hrun, ok_bind]
    dsimp only
    rw [hruns]
    rfl

/-- The content, with what is left of it at the position and the line of the reading. -/
def Reading.At (content : List UInt8) (s : Reading) : Prop :=
  ∃ x, content = x ++ s.units.flatMap TextUnit.bytes ∧ s.pos = x.length ∧
    s.line = x.count 0x0a + 1

theorem Reading.At.after {content : List UInt8} {taken : List TextUnit} (hat : s.At content)
    (hs : s.units = taken ++ us) : (s.after taken).At content := by
  obtain ⟨x, hcontent, hpos, hline⟩ := hat
  refine ⟨x ++ taken.flatMap TextUnit.bytes, ?_, ?_, ?_⟩
  · rw [hcontent, Reading.after, hs, List.drop_left, List.flatMap_append, List.append_assoc]
  · rw [Reading.after, hpos, List.length_append]
  · rw [Reading.after, hline, List.count_append]
    dsimp only
    rw [if_neg (Nat.succ_ne_zero _), Nat.add_right_comm]

theorem Reading.At.meaning {content : List UInt8} (hat : s.At content) (op : ReadOp) :
    (op.meaning s).2.At content := by
  cases op with
  | readLine => exact hat.after (List.take_append_drop _ _).symm
  | peekChar =>
    rw [ReadOp.meaning]
    split <;> exact hat
  | readChar =>
    rw [ReadOp.meaning]
    split
    · rename_i u us hs
      exact hat.after hs
    · exact hat

theorem readingRun_at {content : List UInt8} (hat : s.At content) (ops : List ReadOp) :
    (readingRun s ops).2.At content := by
  induction ops generalizing s with
  | nil => exact hat
  | cons op ops ih => exact ih (hat.meaning op)

/-- At the beginning. -/
def readingOf (content : List UInt8) : Reading := ⟨unitsOf content, 0, 1⟩

theorem Units.flatMap_bytes {bs : List UInt8} (h : Units bs us) :
    us.flatMap TextUnit.bytes = bs := by
  induction h with
  | nil => rfl
  | sequence _ _ ih => rw [List.flatMap_cons, ih]
  | inside => rw [List.flatMap_singleton]

theorem readingOf_at (content : List UInt8) : (readingOf content).At content :=
  ⟨[], (units_unitsOf content).flatMap_bytes.symm, rfl, rfl⟩

theorem tracks_open (content : List UInt8) :
    Tracks (openInputString content) (readingOf content) :=
  .inl ⟨rfl, units_unitsOf content, nofun, rfl, rfl⟩

/-- The operations return the characters of the content, which are those of the decoder,
where each character that is looked at is there and is a single byte and nothing that is
read is cut off by the end.  The handle then is at the offset of what is left. -/
theorem input_handles (content : List UInt8) (ops : List ReadOp)
    (hclear : ClearAll (readingOf content) ops) :
    (∃ cs r, Utf8.Falls content cs r ∧
      (unitsOf content).map TextUnit.code = Utf8.codePoints cs r) ∧
    ∃ h x, inputRun (openInputString content) ops = .ok ((readingRun (readingOf content) ops).1, h) ∧
      content = x ++ (readingRun (readingOf content) ops).2.units.flatMap TextUnit.bytes ∧
      h.pos = x.length ∧ h.line = x.count 0x0a + 1 := by
  refine ⟨units_codes (units_unitsOf content), ?_⟩
  obtain ⟨h', hrun, htracks⟩ := inputRun_tracks (tracks_open content) hclear
  obtain ⟨x, hcontent, hpos, hline⟩ := readingRun_at (readingOf_at content) ops
  refine ⟨h', x, hrun, hcontent, ?_, ?_⟩
  · rw [← hpos]
    exact htracks.elim Direct.pos Held.pos
  · rw [← hline]
    exact htracks.elim Direct.line Held.line

/-- `a`, a newline and `é`: the first is looked at twice. -/
theorem input_looked_at :
    (∃ cs r, Utf8.Falls [0x61, 0x0a, 0xC3, 0xA9] cs r ∧
      (unitsOf [0x61, 0x0a, 0xC3, 0xA9]).map TextUnit.code = Utf8.codePoints cs r) ∧
    ∃ h x, inputRun (openInputString [0x61, 0x0a, 0xC3, 0xA9])
        [.peekChar, .peekChar, .readLine, .readChar] =
        .ok ((readingRun (readingOf [0x61, 0x0a, 0xC3, 0xA9])
          [.peekChar, .peekChar, .readLine, .readChar]).1, h) ∧
      [0x61, 0x0a, 0xC3, 0xA9] = x ++ (readingRun (readingOf [0x61, 0x0a, 0xC3, 0xA9])
        [.peekChar, .peekChar, .readLine, .readChar]).2.units.flatMap TextUnit.bytes ∧
      h.pos = x.length ∧ h.line = x.count 0x0a + 1 :=
  input_handles _ _ (by decide +kernel)

/-- `éa`: the slot is taken for a byte, and with it the `a` is lost, and the position has
gone down by one for a character of two bytes.  At the end, `peek-char` returns the
character `-1` and the position goes down.  The end inside of a sequence drops it. -/
theorem input_altered :
    (inputRun (openInputString [0xC3, 0xA9, 0x61]) [.peekChar, .readChar, .readChar]).map Prod.fst =
        .ok [.unicode 0xE9, .unicode 0xFFFD, .eof] ∧
      (readingRun (readingOf [0xC3, 0xA9, 0x61]) [.peekChar, .readChar, .readChar]).1 =
        [.unicode 0xE9, .unicode 0xE9, .unicode 0x61] ∧
      (inputRun (openInputString [0xC3, 0xA9, 0x61]) [.peekChar]).map (fun p => p.2.pos) = .ok 1 ∧
      (readingRun (readingOf [0xC3, 0xA9, 0x61]) [.peekChar]).2.pos = 0 ∧
    (inputRun (openInputString [0x61]) [.readChar, .peekChar, .readChar]).map
        (fun p => (p.1, p.2.pos)) = .ok ([.unicode 0x61, .unicode (-1), .eof], 0) ∧
      (readingRun (readingOf [0x61]) [.readChar, .peekChar, .readChar]).2.pos = 1 ∧
    (inputRun (openInputString [0x61, 0xC3]) [.readChar, .readChar]).map Prod.fst =
        .ok [.unicode 0x61, .eof] ∧
      (readingRun (readingOf [0x61, 0xC3]) [.readChar, .readChar]).1 =
        [.unicode 0x61, .unicode 0xFFFD] := by
  decide +kernel

end Getting

end Idio
