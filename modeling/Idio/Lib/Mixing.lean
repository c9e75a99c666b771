/-
  Lib/Mixing.lean --- the steps of integer hash functions lose nothing.

  Hash functions on machine words are made of two steps: a word is combined with a
  shifted copy of itself by exclusive or, and it is multiplied by an odd constant.
  Both are injective, so a hash function made of them is.
-/
import Mathlib.Logic.Function.Basic

set_option autoImplicit false

namespace Mixing

variable {w : Nat}

/-- `(x >> s) ^ x`. -/
def xorShift (s : Nat) (x : BitVec w) : BitVec w := (x >>> s) ^^^ x

/-- The top `s` bits of the word are those of `xorShift`, and every other bit follows
from the one `s` places above it. -/
theorem xorShift_injective {s : Nat} (hs : 0 < s) : Function.Injective (@xorShift w s) := by
  intro x y h
  have hbit : ∀ i, (x.getLsbD (s + i) ^^ x.getLsbD i) = (y.getLsbD (s + i) ^^ y.getLsbD i) := by
    intro i
    have := congrArg (fun z : BitVec w => z.getLsbD i) h
    simpa only [xorShift, BitVec.getLsbD_xor, BitVec.getLsbD_ushiftRight] using this
  have hfrom : ∀ n i, w ≤ i + n → x.getLsbD i = y.getLsbD i := by
    intro n
    induction n with
    | zero =>
      intro i hi
      rw [BitVec.getLsbD_of_ge x i hi, BitVec.getLsbD_of_ge y i hi]
    | succ n ih =>
      intro i hi
      have hi' := hbit i
      rw [ih (s + i) (by omega)] at hi'
      exact Bool.xor_right_inj.mp hi'
  exact BitVec.eq_of_getLsbD_eq fun i _ => hfrom w i (Nat.le_add_left w i)

/-- Multiplication by a word that has an inverse. -/
theorem mul_injective {c d : BitVec w} (h : c * d = 1#w) :
    Function.Injective fun x : BitVec w => x * c := by
  apply Function.LeftInverse.injective (g := fun x => x * d)
  intro x
  show x * c * d = x
  rw [BitVec.mul_assoc, h, BitVec.mul_one]

end Mixing
