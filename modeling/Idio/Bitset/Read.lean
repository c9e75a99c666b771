/-
  Bitset/Read.lean --- how bitsets are read.

  After the size, `#B{ ... }` has blocks of bits, blocks with an offset, and ranges
  of whole bytes.  `offset` is where a block without an offset goes: it is left just
  beyond the last block or range.

  The offsets are `ptrdiff_t`, here integers; the places where the program turns them
  into a `size_t` are marked by `sizeT`.
-/
import Idio.Bitset.Text
import Idio.Bignum.RealCompare
import Idio.Read

set_option autoImplicit false

namespace Idio

open Bignum HexString WhileLoop

/-! ## Numbers -/

/-- `(size_t) i`. -/
def sizeT (i : Int) : Nat := (i % 18446744073709551616).toNat

/-- `idio_read_digits` and `idio_read_DIGITS`. -/
def readDigits : List (Char × Char) :=
  "0123456789abcdefghijklmnopqrstuvwxyz".toList.zip "0123456789ABCDEFGHIJKLMNOPQRSTUVWXYZ".toList

/-- `di`, the index of a digit; 36 for any other character. -/
def digitIndex (c : Char) : Nat := readDigits.findIdx fun d => d.1 = c || d.2 = c

/-- `IDIO_SEPARATOR`. -/
def isSeparator (c : Char) : Bool := [' ', '\t', '\n', '\r', '(', ')', '[', ']', '{', '}', '.', ';', '"'].contains c

/-- The loop of `idio_read_bignum_radix`. -/
def radixDigits (basec : Char) (radix : Nat) : Text → Bignum → Nat → Result (Bignum × Nat)
  | [], bn, ndigits => .ok (bn, ndigits)
  | c :: s, bn, ndigits =>
      if isSeparator c then .ok (bn, ndigits)
      else if digitIndex c ≥ radix then
        .error (.readErrorParse ("bignum: invalid digit '" ++ String.ofList [c] ++
          "' in bignum base #" ++ String.ofList [basec]))
      else do
        let bn ← multiply bn (integerIntmaxT radix)
        let bn ← add bn (integerIntmaxT (digitIndex c))
        radixDigits basec radix s bn (ndigits + 1)

/-- A sign, and how many characters it has. -/
def radixSign : Text → Bool × Nat × Text
  | '-' :: s => (true, 1, s)
  | '+' :: s => (false, 1, s)
  | s => (false, 0, s)

/-- `idio_read_bignum_radix` on the text of a string handle, and `idio_handle_tell`
afterwards. -/
def readBignumRadix (basec : Char) (radix : Nat) (s : Text) : Result (Num × Nat) := do
  let (neg, signLen, s) := radixSign s
  let (bn, ndigits) ← radixDigits basec radix s (integerIntmaxT 0) 0
  if ndigits = 0 then
    .error (.readErrorParse ("bignum: no digits after bignum base #" ++ String.ofList [basec]))
  else
    let bn := if neg then Bignum.negate bn else bn
    .ok (toFixnum bn, signLen + ndigits)

/-- `idio_bignum_real_to_integer`; `none` for `#n`. -/
def realToInteger (bn : Bignum) : Result (Option Bignum) :=
  if bn.exp ≥ 0 then do
    match ← scaleSignificand bn 0 sigMaxDigits with
    | none => pure none
    | some bns =>
        let i := copyToInteger bns
        pure (some (if realNegativeP bn then Bignum.negate i else i))
  else .ok none

/-- `idio_bignum_integer_argument`; `none` for `#n`. -/
def integerArgument (bn : Bignum) : Result (Option Bignum) :=
  if bn.flags.integer then .ok (some bn)
  else do
    match ← realToInteger bn with
    | none => pure none
    | some i => pure (if bn.flags.realInexact then none else some i)

/-- `IDIO_BIGNUM_uint64_t_FIRST`. -/
def uint64First : Int := 18

/-- `idio_bignum_uint64_t_value`; the sum is modulo `2 ^ 64`. -/
def uint64Value (bn : Bignum) : Result Nat := do
  match ← integerArgument bn with
  | none => pure 0
  | some bnI =>
      let a1 := bsaTop bnI.sig
      let ai := bnI.sig.length
      if ai > 1 then
        match toFixnum bnI with
        | .fixnum v => pure (sizeT v)
        | .bignum _ =>
            if ai < int64Words ∨ (ai = int64Words ∧ a1 ≤ uint64First ∧ a1 ≥ 0) then
              pure (sizeT (Bignum.toInt bnI.sig))
            else .error (.bignumConversionError
              (String.ofList (asString bnI) ++ " is too large for uint64_t (18446744073709551615)"))
      else pure (sizeT a1)

namespace Bitset

/-! ## Words of the text -/

/-- `IDIO_WORD_MAX_LEN`. -/
def wordMaxLen : Nat := 1023

/-- `idio_read_whitespace`. -/
def readWhitespace (s : Text) : Text := s.dropWhile fun c => c = ' ' || c = '\t'

/-- `idio_read_error_bitset`. -/
def readError {α : Type} (msg : String) : Result α := .error (.readErrorParse ("bitset: " ++ msg))

/-- A word: the characters, where the last colon and the last hyphen are, whether it
ended with the closing brace, and the text after it. -/
structure Word where
  buf : Text
  colon : Option Nat
  hyphen : Option Nat
  done : Bool
  rest : Text

/-- The loop that reads a word; its first characters are in `buf` already. -/
def readWord : Text → Text → Option Nat → Option Nat → Result Word
  | s, buf, colon, hyphen =>
      if buf.length > wordMaxLen then
        .error (.readErrorParse
          ("word is too long: '" ++ String.ofList (buf.take wordMaxLen) ++ "'"))
      else
        match s with
        | [] => readError "EOF"
        | c :: s =>
            if c = ' ' ∨ c = '\t' ∨ c = '\n' ∨ c = '\r' then
              .ok ⟨buf, colon, hyphen, false, readWhitespace s⟩
            else if c = '}' then .ok ⟨buf, colon, hyphen, true, s⟩
            else if c = ':' then readWord s (buf ++ [c]) (some buf.length) hyphen
            else if c = '-' then readWord s (buf ++ [c]) colon (some buf.length)
            else readWord s (buf ++ [c]) colon hyphen

/-! ## The size -/

/-- What is raised for a size that is not a natural number. -/
def badSize {α : Type} : Result α := readError "size must be a positive decimal integer"

/-- `bs_size`, from the first word. -/
def readSize (buf : Text) : Result Nat := do
  match ← readNumberC buf with
  | none => badSize
  | some (.fixnum v) => if v < 0 then badSize else pure v.toNat
  | some (.bignum bn) =>
      if negativeP bn then badSize
      else
        match ← realToInteger bn with
        | none => badSize
        | some _ => uint64Value bn

/-! ## Ranges -/

/-- `%#zx`. -/
def hexAlt (i : Int) : String :=
  if sizeT i = 0 then "0" else "0x" ++ String.ofList (hexText (sizeT i))

/-- `(ssize_t) IDIO_BITSET_SIZE (bs)`. -/
def ssize (bs : Bitset) : Int := wrap64 bs.size

/-- A number that says where something is in the bitset; `msg` for negative ones. -/
def readOffset (msg : String) (n : Num) : Result Int :=
  match n with
  | .fixnum v => if v < 0 then readError msg else .ok v
  | .bignum bn => if negativeP bn then readError msg else (uint64Value bn).map fun v => wrap64 v

/-- The checks of an offset that starts or ends something. -/
def checkOffset (what : String) (bs : Bitset) (offset : Int) : Result Unit :=
  if offset > bs.ssize then
    readError (what ++ " " ++ hexAlt offset ++ " > bitset size " ++ hexAlt bs.size)
  else if offset.tmod charBit ≠ 0 then
    readError (what ++ " " ++ hexAlt offset ++ " is not a byte boundary")
  else .ok ()

/-- The inner loop over the bytes of a word, `n` of them to come: `br` and `offset`. -/
def rangeBytes (last : Int) : Nat → BitVec 32 → Int → BitVec 32 × Int
  | 0, br, offset => (br, offset)
  | n + 1, br, offset =>
      if offset ≤ last then
        rangeBytes last n (br ||| (0xff#32 <<< ((wordBytes - (n + 1)) * charBit)))
          (offset + charBit)
      else (br, offset)

/-- The body of the loop that sets the bits of a range. -/
def rangeStep (last : Int) (st : Bitset × Int) : Result (Bitset × Int) := do
  let (bs, offset) := st
  let n := sizeT (offset.tdiv bitsetBitsPerWord)
  let b := (offset.tmod bitsetBitsPerWord).tdiv charBit
  if b = 0 ∧ offset + bitsetBitsPerWord < last then
    pure (← bs.setWord n (BitVec.allOnes 32), offset + bitsetBitsPerWord)
  else
    let w ← bs.word n
    let (br, offset) := rangeBytes last (wordBytes - b.toNat) 0 offset
    pure (← bs.setWord n (w ||| br), offset)

/-- A word with a hyphen. -/
def readRange (bs : Bitset) (w : Word) (hyphen : Nat) : Result (Bitset × Int) := do
  let first := w.buf.take hyphen
  let (n, tell) ← readBignumRadix 'x' 16 first
  let offset ← readOffset "range start must be a positive base-16 integer" n
  if tell ≠ first.length then
    readError ("range start " ++ hexAlt offset ++ " from \"" ++ String.ofList first ++ "\"")
  else do
    checkOffset "range start" bs offset
    let second := w.buf.drop (hyphen + 1)
    let (n, tell) ← readBignumRadix 'x' 16 second
    let last ← match n with
      | .fixnum v => pure v
      | .bignum bn => (uint64Value bn).map fun v => wrap64 v
    if tell ≠ second.length then
      readError ("range end " ++ hexAlt last ++ " from \"" ++ String.ofList second ++ "\"")
    else do
      checkOffset "range end" bs last
      if offset > last then
        readError ("range start " ++ hexAlt offset ++ " > range end " ++ hexAlt last)
      else
        whileLoop .diverges (fun st => decide (st.2 ≤ last)) (rangeStep last)
          (last - offset + 2).toNat (bs, offset)

/-! ## Blocks -/

/-- The loop over the bits of a block, from bit `i` on. -/
def readBits : Text → Nat → BitVec 32 → Result (BitVec 32)
  | [], _, new => .ok new
  | c :: s, i, new =>
      if c = '0' then readBits s (i + 1) new
      else if c = '1' then readBits s (i + 1) (new ||| (1#32 <<< i))
      else readError ("bits should be 0/1, not " ++ hexAlt c.toNat ++ " @" ++ toString i)

/-- Where a block goes: the offset in front of its bits, or the offset reached. -/
def blockOffset (bs : Bitset) (w : Word) (offset : Int) : Result Int :=
  match w.colon with
  | none => .ok offset
  | some colon => do
      let (n, _) ← readBignumRadix 'x' 16 (w.buf.take colon)
      let offset ← readOffset "offset must be a positive base-16 integer" n
      checkOffset "offset" bs offset
      pure offset

/-- `bit_block`. -/
def bitBlock (w : Word) : Text :=
  match w.colon with
  | none => w.buf
  | some colon => w.buf.drop (colon + 1)

/-- The bits of a block are put in place. -/
def storeBlock (bs : Bitset) (bits : Text) (offset : Int) : Result (Bitset × Int) :=
  if bits.length > charBit then
    readError "bitset bits should be fewer than 8"
  else if sizeT (offset + bits.length) > bs.size then
    readError ("offset " ++ hexAlt offset ++ " + " ++ toString bits.length ++
      " bits > bitset size " ++ hexAlt bs.size)
  else do
    let new ← readBits bits 0 0
    -- a negative offset, which only a huge unsigned one can give, is no index
    if offset < 0 then .error .undefined
    else
      let n := sizeT (offset.tdiv bitsetBitsPerWord)
      let b := ((offset.tmod bitsetBitsPerWord).tdiv charBit).toNat
      let ul ← bs.word n
      let mask : BitVec 32 := 0xff#32 <<< (b * charBit)
      let bs ← bs.setWord n ((ul &&& ~~~ mask) ||| (new <<< (b * charBit)))
      pure (bs, offset + bits.length)

/-- A word without a hyphen. -/
def readBlock (bs : Bitset) (w : Word) (offset : Int) : Result (Bitset × Int) := do
  storeBlock bs (bitBlock w) (← blockOffset bs w offset)

/-! ## The reader -/

/-- The variables of `idio_read_bitset`, and the text to come. -/
structure ReadState where
  text : Text
  bs : Option Bitset
  offset : Int
  done : Bool

/-- What is done with a word: the first one is the size. -/
def storeWord (st : ReadState) (w : Word) : Result ReadState :=
  match st.bs, w.hyphen with
  | none, _ => do
      let size ← readSize w.buf
      pure ⟨w.rest, some (make size), st.offset, w.done⟩
  | some bs, some hyphen => do
      let (bs, offset) ← readRange bs w hyphen
      pure ⟨w.rest, some bs, offset, w.done⟩
  | some bs, none => do
      let (bs, offset) ← readBlock bs w st.offset
      pure ⟨w.rest, some bs, offset, w.done⟩

/-- The body of the loop over the words. -/
def readStep (st : ReadState) : Result ReadState :=
  match st.text with
  | [] => readError "EOF"
  | c :: s =>
      if c = '}' then .ok { st with text := s, done := true }
      else do storeWord st (← readWord s [c] none none)

/-- `idio_read_bitset`, on the text after `#B`; `none` for `#n`. -/
def readBitset (s : Text) : Result (Option Bitset) :=
  match s with
  | [] => readError "EOF"
  | c :: s =>
      if c = '{' then do
        let st ← whileLoop .diverges (fun st => !st.done) readStep (s.length + 1)
          ⟨readWhitespace s, none, 0, false⟩
        pure st.bs
      else readError "not a \x7b"

/-- A bitset literal. -/
def readText (s : Text) : Result (Option Bitset) :=
  match s with
  | '#' :: 'B' :: s => readBitset s
  | _ => .error (.readErrorParse "not a bitset")

end Bitset

end Idio
