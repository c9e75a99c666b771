/-
  Bitset/Text.lean --- how bitsets are printed.

  The words are printed byte by byte.  Bytes with all bits set are collected into a
  range, which is written when the first other byte comes; bytes with no bit set are
  skipped, and the next byte with some bits set then says where it is.
-/
import Idio.Bitset.Algebra
import Idio.Text
import Idio.Lib.HexString

set_option autoImplicit false

namespace Idio

open Bignum HexString DigitString

/-- `%zx`. -/
def hexText (n : Nat) : Text := (hexDigits n).map hexChar

namespace Bitset

/-- `CHAR_BIT`. -/
def charBit : Nat := 8

/-- `sizeof (idio_bitset_word_t)`. -/
def wordBytes : Nat := 4

/-- The variables of `idio_bitset_as_C_string`; `range` is `range_start` while
`in_range` is set. -/
structure PrintState where
  text : Text
  count : Nat
  lead : Bool
  range : Option Nat

/-- `"%zx-%zx "`. -/
def rangeText (first last : Nat) : Text := hexText first ++ '-' :: (hexText last ++ [' '])

/-- A range that is over is written. -/
def PrintState.endRange (st : PrintState) : PrintState :=
  match st.range with
  | none => st
  | some start =>
      { st with text := st.text ++ rangeText start (st.count - charBit), range := none }

/-- What is written before a byte when `print_lead` is set: the range, or the offset. -/
def PrintState.putLead (st : PrintState) : PrintState :=
  if st.lead then
    match st.range with
    | some _ => { st.endRange with lead := false }
    | none => { st with text := st.text ++ (hexText st.count ++ [':']), lead := false }
  else st

/-- The loop over the bits of a byte, `n` of them to come, and `count` after it. -/
def blockBits (w : BitVec 32) (offset size : Nat) : Nat → Nat → Text × Nat
  | 0, count => ([], count)
  | n + 1, count =>
      let j := charBit - (n + 1)
      if count + 1 > size then ([], count + 1)
      else
        let (bits, count') := blockBits w offset size n (count + 1)
        ((if w.getLsbD (offset + j) then '1' else '0') :: bits, count')

/-- The body of the loop over the bytes of a word. -/
def printByte (size : Nat) (w : BitVec 32) (b : Nat) (st : PrintState) : PrintState :=
  let offset := b * charBit
  let mask : BitVec 32 := 0xff#32 <<< offset
  let byteBits := w &&& mask
  if byteBits ≠ 0 then
    if byteBits = mask then
      { st with
        range := some (st.range.getD st.count)
        count := st.count + charBit
        lead := true }
    else
      let st := st.putLead
      let (bits, count) := blockBits w offset size charBit st.count
      { st with text := st.text ++ (bits ++ [' ']), count := count }
  else { st.endRange with count := st.count + charBit, lead := true }

/-- The loop over the bytes of a word, `n` of them to come. -/
def printBytes (size : Nat) (w : BitVec 32) : Nat → PrintState → PrintState
  | 0, st => st
  | n + 1, st =>
      if st.count < size then printBytes size w n (printByte size w (wordBytes - (n + 1)) st)
      else st

/-- The body of the loop over the words. -/
def printWord (size : Nat) (w : BitVec 32) (st : PrintState) : PrintState :=
  if w ≠ 0 then printBytes size w wordBytes st
  else { st.endRange with count := st.count + bitsetBitsPerWord, lead := true }

/-- The loop over the words. -/
def printWords (bs : Bitset) (n : Nat) (st : PrintState) : Result PrintState :=
  (List.range n).foldlM (fun st i => do pure (printWord bs.size (← bs.word i) st)) st

/-- `"#B{ %zu "`. -/
def sizeText (size : Nat) : Text :=
  ['#', 'B', '{', ' '] ++ (digitText (digitsOf size) ++ [' '])

/-- `idio_bitset_as_C_string`. -/
def asCString (bs : Bitset) : Result Text := do
  let st ← printWords bs (bs.size / bitsetBitsPerWord + 1) ⟨sizeText bs.size, 0, false, none⟩
  pure (st.endRange.text ++ ['}'])

end Bitset

end Idio
