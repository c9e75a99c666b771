/-
  Lib/WordBits.lean --- the bits of a sequence of words.

  Bit `i` is bit `i % w` of word `i / w`, and words beyond the end count as zero.
  A change of one word is a change of its own bits, and two sequences have a word in
  common exactly if they have its bits in common.
-/
import Mathlib.Data.List.GetD

set_option autoImplicit false

namespace WordBits

variable {w : Nat}

/-- Bit `i`. -/
def bitAt (ws : List (BitVec w)) (i : Nat) : Bool := (ws.getD (i / w) 0).getLsbD (i % w)

theorem bitAt_word (ws : List (BitVec w)) (n : Nat) {j : Nat} (hj : j < w) :
    bitAt ws (w * n + j) = (ws.getD n 0).getLsbD j := by
  have hdiv : (w * n + j) / w = n := by
    rw [Nat.mul_add_div (by omega), Nat.div_eq_of_lt hj, Nat.add_zero]
  have hmod : (w * n + j) % w = j := by
    rw [Nat.mul_add_mod, Nat.mod_eq_of_lt hj]
  rw [bitAt, hdiv, hmod]

/-- A word is its bits. -/
theorem word_eq_iff {ws vs : List (BitVec w)} {n : Nat} :
    ws.getD n 0 = vs.getD n 0 ↔ ∀ j < w, bitAt ws (w * n + j) = bitAt vs (w * n + j) := by
  constructor
  · intro h j hj
    rw [bitAt_word ws n hj, bitAt_word vs n hj, h]
  · intro h
    apply BitVec.eq_of_getLsbD_eq
    intro j hj
    rw [← bitAt_word ws n hj, ← bitAt_word vs n hj, h j hj]

theorem getD_set (ws : List (BitVec w)) {n : Nat} (hn : n < ws.length) (v : BitVec w) (m : Nat) :
    (ws.set n v).getD m 0 = if m = n then v else ws.getD m 0 := by
  by_cases hm : m = n
  · subst hm
    simp [List.getD_eq_getElem?_getD, hn]
  · have hm' : ¬ n = m := fun he => hm he.symm
    simp [List.getD_eq_getElem?_getD, hm, hm']

/-- One word written. -/
theorem bitAt_setWord {ws : List (BitVec w)} {n : Nat} (hn : n < ws.length) (v : BitVec w) (i : Nat) :
    bitAt (ws.set n v) i = if i / w = n then v.getLsbD (i % w) else bitAt ws i := by
  rw [bitAt, getD_set ws hn]
  split <;> rfl

/-- One bit of one word set or cleared. -/
theorem bitAt_set {ws : List (BitVec w)} {b : Nat} (hw : 0 < w) (hb : b / w < ws.length)
    {v : BitVec w} {x : Bool}
    (hv : ∀ j < w, v.getLsbD j = if j = b % w then x else (ws.getD (b / w) 0).getLsbD j) (i : Nat) :
    bitAt (ws.set (b / w) v) i = if i = b then x else bitAt ws i := by
  have hi : i / w = b / w → (i % w = b % w ↔ i = b) := by
    intro hdiv
    have h1 := Nat.div_add_mod i w
    have h2 := Nat.div_add_mod b w
    rw [hdiv] at h1
    omega
  rw [bitAt_setWord hb]
  by_cases hdiv : i / w = b / w
  · rw [if_pos hdiv, hv _ (Nat.mod_lt i hw)]
    simp only [hi hdiv, bitAt, hdiv]
  · have hne : i ≠ b := fun he => hdiv (by rw [he])
    rw [if_neg hdiv, if_neg hne]

end WordBits
