/-
  Bitset/Basic.lean --- bitsets and the operations on them.

  A bitset of `size` bits has `size / 32 + 1` words of 32 bits, so there is at least
  one bit in the last word that is not a bit of the set: these excess bits are
  whatever the operations on whole words leave there.  A bitset of no bits has no
  words at all.
-/
import Idio.Basic
import Idio.Lib.WordBits

set_option autoImplicit false

namespace Idio

open WordBits

/-- `IDIO_BITSET_BITS_PER_WORD`. -/
def bitsetBitsPerWord : Nat := 32

/-- Word `i` of a bitset, less the bits beyond its size. -/
def bitsetWord (size : Nat) (words : List (BitVec 32)) (nUl i : Nat) : BitVec 32 :=
  let excess := size % bitsetBitsPerWord
  if excess ≠ 0 ∧ i = nUl - 1 then
    words.getD i 0 &&& (BitVec.allOnes 32 >>> (bitsetBitsPerWord - excess))
  else words.getD i 0

/-- `idio_equal_bitsetp`. -/
def equalBitset (size1 size2 : Nat) (words1 words2 : List (BitVec 32)) : Bool :=
  if size1 ≠ size2 then false
  else
    let nUl := size1 / bitsetBitsPerWord + if size1 % bitsetBitsPerWord ≠ 0 then 1 else 0
    (List.range nUl).all fun i => bitsetWord size1 words1 nUl i == bitsetWord size1 words2 nUl i

theorem equalBitset_eq_true {n m : Nat} {ws vs : List (BitVec 32)} :
    equalBitset n m ws vs = true ↔
      n = m ∧ ∀ i < n / bitsetBitsPerWord + if n % bitsetBitsPerWord ≠ 0 then 1 else 0,
        bitsetWord n ws (n / bitsetBitsPerWord + if n % bitsetBitsPerWord ≠ 0 then 1 else 0) i =
          bitsetWord n vs (n / bitsetBitsPerWord + if n % bitsetBitsPerWord ≠ 0 then 1 else 0) i := by
  unfold equalBitset
  split
  · rename_i hne
    simp [hne]
  · rename_i heq
    simp [not_not.mp heq]

theorem equalBitset_symm {n m : Nat} {ws vs : List (BitVec 32)}
    (h : equalBitset n m ws vs = true) : equalBitset m n vs ws = true := by
  obtain ⟨rfl, hwords⟩ := equalBitset_eq_true.mp h
  exact equalBitset_eq_true.mpr ⟨rfl, fun i hi => (hwords i hi).symm⟩

theorem equalBitset_trans {n m l : Nat} {ws vs us : List (BitVec 32)}
    (h : equalBitset n m ws vs = true) (h' : equalBitset m l vs us = true) :
    equalBitset n l ws us = true := by
  obtain ⟨rfl, hwords⟩ := equalBitset_eq_true.mp h
  obtain ⟨rfl, hwords'⟩ := equalBitset_eq_true.mp h'
  exact equalBitset_eq_true.mpr ⟨rfl, fun i hi => (hwords i hi).trans (hwords' i hi)⟩

/-- `idio_bitset_t`; no words stand for the `NULL` of a bitset of no bits. -/
@[ext]
structure Bitset where
  size : Nat
  words : List (BitVec 32)
  allocated : words.length = if size = 0 then 0 else size / bitsetBitsPerWord + 1

namespace Bitset

/-- `idio_bitset`. -/
def make (size : Nat) : Bitset where
  size := size
  words := List.replicate (if size = 0 then 0 else size / bitsetBitsPerWord + 1) 0
  allocated := by rw [List.length_replicate]

/-- `IDIO_BITSET_WORDS (bs, i)`, read. -/
def word (bs : Bitset) (i : Nat) : Result (BitVec 32) :=
  match bs.words[i]? with
  | some w => .ok w
  | none => .error .undefined

/-- `IDIO_BITSET_WORDS (bs, i)`, written. -/
def setWord (bs : Bitset) (i : Nat) (w : BitVec 32) : Result Bitset :=
  if i < bs.words.length then
    .ok { bs with
      words := bs.words.set i w
      allocated := by rw [List.length_set, bs.allocated] }
  else .error .undefined

/-- `idio_bitset_set`. -/
def set (bs : Bitset) (bit : Nat) : Result Bitset :=
  if bit ≥ bs.size then .error (.bitsetBounds bit bs.size)
  else do
    let i := bit / bitsetBitsPerWord
    bs.setWord i ((← bs.word i) ||| (1#32 <<< (bit % bitsetBitsPerWord)))

/-- `idio_bitset_clear`. -/
def clear (bs : Bitset) (bit : Nat) : Result Bitset :=
  if bit ≥ bs.size then .error (.bitsetBounds bit bs.size)
  else do
    let i := bit / bitsetBitsPerWord
    bs.setWord i ((← bs.word i) &&& ~~~ (1#32 <<< (bit % bitsetBitsPerWord)))

/-- `idio_bitset_ref`. -/
def ref (bs : Bitset) (bit : Nat) : Result Bool :=
  if bit ≥ bs.size then .error (.bitsetBounds bit bs.size)
  else do
    let w ← bs.word (bit / bitsetBitsPerWord)
    pure (w &&& (1#32 <<< (bit % bitsetBitsPerWord)) != 0)

/-- `for (i = 0; i < n; i++) IDIO_BITSET_WORDS (r, i) = f (i, IDIO_BITSET_WORDS (r, i))`. -/
def updateWords (n : Nat) (f : Nat → BitVec 32 → Result (BitVec 32)) (r : Bitset) :
    Result Bitset :=
  (List.range n).foldlM (fun r i => do r.setWord i (← f i (← r.word i))) r

/-- `idio_copy_bitset`. -/
def copy (obs : Bitset) : Result Bitset :=
  updateWords (obs.size / bitsetBitsPerWord + 1) (fun i _ => obs.word i) (make obs.size)

/-- `n_ul`, the words that have bits of the set. -/
def nUl (size : Nat) : Nat :=
  size / bitsetBitsPerWord + if size % bitsetBitsPerWord ≠ 0 then 1 else 0

/-- The loop over the arguments that `merge-bitset`, `and-bitset`, `ior-bitset`,
`xor-bitset` and `subtract-bitset` share, with what it does to a word of `r` and a
word of `bs`. -/
def combine (f : BitVec 32 → BitVec 32 → BitVec 32) :
    Option Bitset → List Bitset → Result (Option Bitset)
  | r, [] => .ok r
  | none, bs :: args => do combine f (some (← bs.copy)) args
  | some r, bs :: args =>
      if bs.size ≠ r.size then .error (.bitsetSizeMismatch bs.size r.size)
      else do
        let r ← updateWords (nUl bs.size) (fun i w => do pure (f w (← bs.word i))) r
        combine f (some r) args

/-- `merge-bitset`; `none` for `#n`. -/
def mergeBitset (args : List Bitset) : Result (Option Bitset) := combine (· ||| ·) none args

/-- `and-bitset`. -/
def andBitset (args : List Bitset) : Result (Option Bitset) := combine (· &&& ·) none args

/-- `ior-bitset`. -/
def iorBitset (args : List Bitset) : Result (Option Bitset) := combine (· ||| ·) none args

/-- `xor-bitset`. -/
def xorBitset (args : List Bitset) : Result (Option Bitset) := combine (· ^^^ ·) none args

/-- `subtract-bitset`. -/
def subtractBitset (args : List Bitset) : Result (Option Bitset) :=
  combine (fun r bs => if bs ≠ 0 then r &&& ~~~ bs else r) none args

/-- `idio_not_bitset`. -/
def notBitset (bs : Bitset) : Result Bitset := do
  updateWords (nUl bs.size) (fun i _ => do pure (~~~ (← bs.word i))) (← bs.copy)

/-- `idio_equal_bitsetp` on a list of bitsets. -/
def equalBitsetP : List Bitset → Bool
  | [] => true
  | bs :: args => args.all fun bs2 => equalBitset bs.size bs2.size bs.words bs2.words

/-- Bit `i` of the words. -/
def bit (bs : Bitset) (i : Nat) : Bool := bitAt bs.words i

end Bitset

end Idio
