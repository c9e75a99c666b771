/-
  Bitset/Algebra.lean --- bitsets as sets of numbers below their size.

  Each operation on words is the Boolean operation on every bit of the set, whatever
  the excess bits are, and `equal-bitset?` does not look at the excess bits.  But an
  operation that copies its first argument copies `size / 32 + 1` words, and a bitset
  of no bits has none: `bitset_algebra` has `size ≠ 0` as the exact condition.
-/
import Idio.Bitset.Basic

set_option autoImplicit false

namespace Idio

open WordBits

namespace Bitset

/-! ## Words -/

theorem length_words {bs : Bitset} (h : bs.size ≠ 0) :
    bs.words.length = bs.size / bitsetBitsPerWord + 1 := by
  rw [bs.allocated, if_neg h]

theorem nUl_eq (size : Nat) : nUl size = (size + 31) / 32 := by
  unfold nUl bitsetBitsPerWord
  split <;> omega

theorem nUl_le_length (bs : Bitset) : nUl bs.size ≤ bs.words.length := by
  rw [bs.allocated, nUl_eq, bitsetBitsPerWord]
  split <;> omega

/-- The word of a bit of the set. -/
theorem div_lt_nUl {size i : Nat} (h : i < size) : i / bitsetBitsPerWord < nUl size := by
  rw [nUl_eq, bitsetBitsPerWord]
  omega

theorem div_lt_length {bs : Bitset} {i : Nat} (h : i < bs.size) :
    i / bitsetBitsPerWord < bs.words.length :=
  Nat.lt_of_lt_of_le (div_lt_nUl h) (nUl_le_length bs)

theorem word_eq {bs : Bitset} {i : Nat} (h : i < bs.words.length) :
    bs.word i = .ok (bs.words.getD i 0) := by
  rw [word, List.getElem?_eq_getElem h, List.getD_eq_getElem _ _ h]

theorem setWord_eq {bs : Bitset} {i : Nat} (h : i < bs.words.length) (w : BitVec 32) :
    ∃ r, bs.setWord i w = .ok r ∧ r.size = bs.size ∧ r.words = bs.words.set i w := by
  rw [setWord, if_pos h]
  exact ⟨_, rfl, rfl, rfl⟩

theorem updateWords_succ (n : Nat) (f : Nat → BitVec 32 → Result (BitVec 32)) (r : Bitset) :
    updateWords (n + 1) f r =
      updateWords n f r >>= fun s => s.word n >>= fun w => f n w >>= fun v => s.setWord n v := by
  simp [updateWords, List.range_succ, List.foldlM_append]

/-- A loop over the first `n` words. -/
theorem updateWords_spec {f : Nat → BitVec 32 → Result (BitVec 32)} {g : Nat → BitVec 32}
    {r : Bitset} {n : Nat} (hn : n ≤ r.words.length)
    (hf : ∀ i < n, f i (r.words.getD i 0) = .ok (g i)) :
    ∃ r', updateWords n f r = .ok r' ∧ r'.size = r.size ∧
      r'.words.length = r.words.length ∧
      ∀ i, r'.words.getD i 0 = if i < n then g i else r.words.getD i 0 := by
  induction n with
  | zero => exact ⟨r, rfl, rfl, rfl, fun i => rfl⟩
  | succ n ih =>
    obtain ⟨r', hrun, hsize, hlen, hwords⟩ := ih (by omega) fun i hi => hf i (by omega)
    have hword : r'.words.getD n 0 = r.words.getD n 0 := by
      rw [hwords, if_neg (Nat.lt_irrefl n)]
    have hin : n < r'.words.length := by omega
    obtain ⟨r'', hset, hsize', hwords'⟩ := setWord_eq hin (g n)
    refine ⟨r'', ?_, by rw [hsize', hsize], by rw [hwords', List.length_set, hlen], ?_⟩
    · rw [updateWords_succ, hrun]
      show (r'.word n >>= _) = _
      rw [word_eq (by omega), hword]
      show (f n (r.words.getD n 0) >>= _) = _
      rw [hf n (Nat.lt_succ_self n)]
      exact hset
    · intro i
      rw [hwords', getD_set _ (by omega), hwords]
      by_cases hi : i = n
      · rw [if_pos hi, if_pos (by omega), hi]
      · rw [if_neg hi]
        by_cases hlt : i < n
        · rw [if_pos hlt, if_pos (by omega)]
        · rw [if_neg hlt, if_neg (by omega)]

theorem copy_eq {bs : Bitset} (h : bs.size ≠ 0) : bs.copy = .ok bs := by
  have hlen := length_words h
  have hlen' : (make bs.size).words.length = bs.words.length := by
    rw [(make bs.size).allocated, bs.allocated]
    rfl
  obtain ⟨r, hrun, hsize, hlenr, hwords⟩ :=
    updateWords_spec (f := fun i _ => bs.word i) (g := fun i => bs.words.getD i 0)
      (r := make bs.size) (n := bs.size / bitsetBitsPerWord + 1) (by omega)
      fun i hi => word_eq (by omega)
  have heq : r = bs := by
    refine Bitset.ext (by rw [hsize]; rfl) ?_
    apply List.ext_getElem (by omega)
    intro i hi hi'
    have := hwords i
    rwa [if_pos (by omega), List.getD_eq_getElem _ _ hi, List.getD_eq_getElem _ _ hi'] at this
  rw [copy, hrun, heq]

/-- There is no word to copy. -/
theorem copy_of_size_zero {bs : Bitset} (h : bs.size = 0) : bs.copy = .error .undefined := by
  have hnil : (make bs.size).words = [] := by simp [make, h]
  have hword : (make bs.size).word 0 = .error .undefined := by rw [word, hnil]; rfl
  rw [h] at hword
  rw [copy, h, show 0 / bitsetBitsPerWord + 1 = 0 + 1 from rfl, updateWords_succ]
  simp only [updateWords, List.range_zero, List.foldlM_nil, pure_bind, hword]
  rfl

/-! ## The operations -/

/-- The combined words, bit by bit. -/
theorem combine_spec {f : BitVec 32 → BitVec 32 → BitVec 32} {k : Bool → Bool → Bool}
    (hf : ∀ v w : BitVec 32, ∀ j < 32, (f v w).getLsbD j = k (v.getLsbD j) (w.getLsbD j))
    {rest : List Bitset} {r : Bitset} (h : ∀ b ∈ rest, b.size = r.size) :
    ∃ r', combine f (some r) rest = .ok (some r') ∧ r'.size = r.size ∧
      ∀ i < r.size, r'.bit i = rest.foldl (fun x b => k x (b.bit i)) (r.bit i) := by
  induction rest generalizing r with
  | nil => exact ⟨r, rfl, rfl, fun i hi => rfl⟩
  | cons bs rest ih =>
    obtain ⟨hbs, hrest⟩ := List.forall_mem_cons.mp h
    have hle := nUl_le_length r
    have hle' := nUl_le_length bs
    obtain ⟨s, hrun, hsize, -, hwords⟩ :=
      updateWords_spec (f := fun i w => do pure (f w (← bs.word i)))
        (g := fun i => f (r.words.getD i 0) (bs.words.getD i 0)) (r := r) (n := nUl bs.size)
        (by rw [hbs]; exact hle) (by
          intro i hi
          show (bs.word i >>= _) = _
          rw [word_eq (Nat.lt_of_lt_of_le hi hle')]
          rfl)
    obtain ⟨r', hcomb, hsize', hbits⟩ := ih (r := s) fun b hb => (hrest b hb).trans hsize.symm
    refine ⟨r', ?_, hsize'.trans hsize, ?_⟩
    · rw [combine, if_neg (not_not.mpr hbs), hrun]
      exact hcomb
    · intro i hi
      have hbit : s.bit i = k (r.bit i) (bs.bit i) := by
        rw [bit, bitAt, hwords, if_pos (by rw [hbs]; exact div_lt_nUl hi)]
        exact hf _ _ _ (Nat.mod_lt i (by decide))
      rw [hbits i (by rw [hsize]; exact hi), hbit, List.foldl_cons]

/-- `op` computes `k` on the bits of `bs` and of each further argument. -/
def Computes (op : List Bitset → Result (Option Bitset)) (k : Bool → Bool → Bool) (bs : Bitset)
    (rest : List Bitset) : Prop :=
  ∃ r, op (bs :: rest) = .ok (some r) ∧ r.size = bs.size ∧
    ∀ i < bs.size, r.bit i = rest.foldl (fun x b => k x (b.bit i)) (bs.bit i)

theorem computes_iff {f : BitVec 32 → BitVec 32 → BitVec 32} {k : Bool → Bool → Bool}
    (hf : ∀ v w : BitVec 32, ∀ j < 32, (f v w).getLsbD j = k (v.getLsbD j) (w.getLsbD j))
    {bs : Bitset} {rest : List Bitset} (h : ∀ b ∈ rest, b.size = bs.size) :
    Computes (combine f none) k bs rest ↔ bs.size ≠ 0 := by
  constructor
  · rintro ⟨r, hr, -, -⟩ hzero
    rw [combine, copy_of_size_zero hzero] at hr
    cases hr
  · intro hne
    obtain ⟨r, hr, hsize, hbits⟩ := combine_spec hf h
    refine ⟨r, ?_, hsize, hbits⟩
    rw [combine, copy_eq hne]
    exact hr

/-- `not-bitset` complements the bits. -/
def Complements (bs : Bitset) : Prop :=
  ∃ r, bs.notBitset = .ok r ∧ r.size = bs.size ∧ ∀ i < bs.size, r.bit i = !bs.bit i

theorem complements_iff {bs : Bitset} : Complements bs ↔ bs.size ≠ 0 := by
  constructor
  · rintro ⟨r, hr, -, -⟩ hzero
    rw [notBitset, copy_of_size_zero hzero] at hr
    cases hr
  · intro hne
    have hle := nUl_le_length bs
    obtain ⟨r, hrun, hsize, -, hwords⟩ :=
      updateWords_spec (f := fun i _ => do pure (~~~ (← bs.word i)))
        (g := fun i => ~~~ bs.words.getD i 0) (r := bs) (n := nUl bs.size) hle (by
          intro i hi
          show (bs.word i >>= _) = _
          rw [word_eq (Nat.lt_of_lt_of_le hi hle)]
          rfl)
    refine ⟨r, by rw [notBitset, copy_eq hne]; exact hrun, hsize, ?_⟩
    intro i hi
    have hmod : i % 32 < 32 := Nat.mod_lt i (by decide)
    rw [bit, bitAt, hwords, if_pos (by exact div_lt_nUl hi), BitVec.getLsbD_not]
    simp [hmod, bit, bitAt]

/-! ## Equality -/

/-- Equal words, less the excess bits, are equal bits of the set. -/
theorem bitsetWord_eq_iff {size i : Nat} {ws vs : List (BitVec 32)} (hi : i < nUl size) :
    bitsetWord size ws (nUl size) i = bitsetWord size vs (nUl size) i ↔
      ∀ j < 32, 32 * i + j < size → bitAt ws (32 * i + j) = bitAt vs (32 * i + j) := by
  have hlast : size % bitsetBitsPerWord ≠ 0 ∧ i = nUl size - 1 ∨ 32 * i + 32 ≤ size := by
    rw [nUl_eq] at hi ⊢
    rw [bitsetBitsPerWord]
    omega
  by_cases hexcess : size % bitsetBitsPerWord ≠ 0 ∧ i = nUl size - 1
  · have hsize : size = 32 * i + size % bitsetBitsPerWord := by
      rw [nUl_eq, bitsetBitsPerWord] at hexcess
      rw [bitsetBitsPerWord]
      omega
    have hmask : ∀ j < 32, (BitVec.allOnes 32 >>> (bitsetBitsPerWord - size % bitsetBitsPerWord)).getLsbD j =
        decide (32 * i + j < size) := by
      intro j hj
      simp only [BitVec.getLsbD_ushiftRight, BitVec.getLsbD_allOnes, bitsetBitsPerWord] at *
      congr 1
      apply propext
      omega
    rw [bitsetWord, bitsetWord, if_pos hexcess, if_pos hexcess]
    constructor
    · intro h j hj hlt
      have hbit := congrArg (fun v => v.getLsbD j) h
      simp only [BitVec.getLsbD_and, hmask j hj, hlt, decide_true, Bool.and_true] at hbit
      rw [bitAt_word ws i hj, bitAt_word vs i hj, hbit]
    · intro h
      apply BitVec.eq_of_getLsbD_eq
      intro j hj
      rw [BitVec.getLsbD_and, BitVec.getLsbD_and, hmask j hj]
      by_cases hlt : 32 * i + j < size
      · rw [← bitAt_word ws i hj, ← bitAt_word vs i hj, h j hj hlt]
      · simp [hlt]
  · have hfull : 32 * i + 32 ≤ size := hlast.resolve_left hexcess
    rw [bitsetWord, bitsetWord, if_neg hexcess, if_neg hexcess, word_eq_iff]
    constructor
    · intro h j hj _
      exact h j hj
    · intro h j hj
      exact h j hj (by omega)

/-- `equal-bitset?` compares sizes and the bits of the sets. -/
theorem equalBitset_iff_bits {bs cs : Bitset} :
    equalBitset bs.size cs.size bs.words cs.words = true ↔
      bs.size = cs.size ∧ ∀ i < bs.size, bs.bit i = cs.bit i := by
  rw [equalBitset_eq_true]
  refine and_congr_right fun hsize => ?_
  constructor
  · intro h i hi
    have hword := (bitsetWord_eq_iff (div_lt_nUl hi)).mp (h _ (div_lt_nUl hi)) (i % 32)
      (Nat.mod_lt i (by decide))
    have hdiv := Nat.div_add_mod i 32
    simp only [bitsetBitsPerWord, hdiv] at hword
    exact hword hi
  · intro h i hi
    exact (bitsetWord_eq_iff hi).mpr fun j _ hlt => h _ hlt

theorem equalBitsetP_iff {bs : Bitset} {args : List Bitset} :
    equalBitsetP (bs :: args) = true ↔
      ∀ cs ∈ args, bs.size = cs.size ∧ ∀ i < bs.size, bs.bit i = cs.bit i := by
  rw [equalBitsetP, List.all_eq_true]
  exact forall₂_congr fun cs _ => equalBitset_iff_bits

/-! ## Single bits -/

theorem getLsbD_oneShift (b : Nat) {j : Nat} (hj : j < 32) :
    (1#32 <<< b).getLsbD j = decide (j = b) := by
  rw [BitVec.getLsbD_shiftLeft]
  by_cases h : j = b
  · simp [h, h ▸ hj]
  · by_cases hlt : j < b
    · simp [h, hlt]
    · have hne : j - b ≠ 0 := by omega
      simp [h, hne]

/-- A write to bit `b` through its word. -/
theorem setWord_bit {bs : Bitset} {b : Nat} (hb : b < bs.size) {v : BitVec 32} {x : Bool}
    (hv : ∀ j < 32, v.getLsbD j =
      if j = b % 32 then x else (bs.words.getD (b / 32) 0).getLsbD j) :
    ∃ r, bs.setWord (b / bitsetBitsPerWord) v = .ok r ∧ r.size = bs.size ∧
      ∀ i, r.bit i = if i = b then x else bs.bit i := by
  obtain ⟨r, hrun, hsize, hwords⟩ := setWord_eq (div_lt_length hb) v
  refine ⟨r, hrun, hsize, fun i => ?_⟩
  rw [bit, hwords]
  exact bitAt_set (by decide) (div_lt_length hb) hv i

theorem set_spec {bs : Bitset} {b : Nat} (hb : b < bs.size) :
    ∃ r, bs.set b = .ok r ∧ r.size = bs.size ∧
      ∀ i, r.bit i = if i = b then true else bs.bit i := by
  rw [set, if_neg (Nat.not_le.mpr hb)]
  dsimp only
  rw [word_eq (div_lt_length hb)]
  apply setWord_bit hb
  intro j hj
  rw [BitVec.getLsbD_or, getLsbD_oneShift _ hj, bitsetBitsPerWord]
  by_cases h : j = b % 32 <;> simp [h]

theorem clear_spec {bs : Bitset} {b : Nat} (hb : b < bs.size) :
    ∃ r, bs.clear b = .ok r ∧ r.size = bs.size ∧
      ∀ i, r.bit i = if i = b then false else bs.bit i := by
  rw [clear, if_neg (Nat.not_le.mpr hb)]
  dsimp only
  rw [word_eq (div_lt_length hb)]
  apply setWord_bit hb
  intro j hj
  rw [BitVec.getLsbD_and, BitVec.getLsbD_not, getLsbD_oneShift _ hj, bitsetBitsPerWord]
  by_cases h : j = b % 32 <;> simp [h, hj]

theorem ref_spec {bs : Bitset} {b : Nat} (hb : b < bs.size) : bs.ref b = .ok (bs.bit b) := by
  have hmod : b % 32 < 32 := Nat.mod_lt b (by decide)
  have hand : ∀ v : BitVec 32, (v &&& (1#32 <<< (b % 32)) != 0) = v.getLsbD (b % 32) := by
    intro v
    rw [Bool.eq_iff_iff, bne_iff_ne, ne_eq, ← not_iff_not, not_not]
    constructor
    · intro h
      have hbit := congrArg (fun u => u.getLsbD (b % 32)) h
      simpa [getLsbD_oneShift _ hmod] using hbit
    · intro h
      apply BitVec.eq_of_getLsbD_eq
      intro j hj
      rw [BitVec.getLsbD_and, getLsbD_oneShift _ hj]
      by_cases hjb : j = b % 32
      · simp [hjb, h]
      · simp [hjb]
  rw [ref, if_neg (Nat.not_le.mpr hb), word_eq (div_lt_length hb)]
  show Except.ok _ = _
  rw [bitsetBitsPerWord, hand]
  rfl

/-- The functions on one bit address that bit, and no other. -/
def AddressesBits (bs : Bitset) : Prop :=
  ∀ b, if b < bs.size then
      (∃ r, bs.set b = .ok r ∧ r.size = bs.size ∧
        ∀ i, r.bit i = if i = b then true else bs.bit i) ∧
      (∃ r, bs.clear b = .ok r ∧ r.size = bs.size ∧
        ∀ i, r.bit i = if i = b then false else bs.bit i) ∧
      bs.ref b = .ok (bs.bit b)
    else
      bs.set b = .error (.bitsetBounds b bs.size) ∧
      bs.clear b = .error (.bitsetBounds b bs.size) ∧
      bs.ref b = .error (.bitsetBounds b bs.size)

theorem addressesBits (bs : Bitset) : AddressesBits bs := by
  intro b
  split
  · rename_i hb
    exact ⟨set_spec hb, clear_spec hb, ref_spec hb⟩
  · rename_i hb
    have hge : b ≥ bs.size := Nat.not_lt.mp hb
    exact ⟨if_pos hge, if_pos hge, if_pos hge⟩

/-! ## The set algebra -/

/-- On bitsets of one size: the operations are the Boolean operations on bits exactly
if there are bits, equality is equality of bits, and single bits are addressed. -/
theorem bitset_algebra (bs : Bitset) (rest : List Bitset) (h : ∀ b ∈ rest, b.size = bs.size) :
    (Computes andBitset (fun x y => x && y) bs rest ↔ bs.size ≠ 0) ∧
      (Computes iorBitset (fun x y => x || y) bs rest ↔ bs.size ≠ 0) ∧
      (Computes xorBitset (fun x y => x ^^ y) bs rest ↔ bs.size ≠ 0) ∧
      (Computes subtractBitset (fun x y => x && !y) bs rest ↔ bs.size ≠ 0) ∧
      (Computes mergeBitset (fun x y => x || y) bs rest ↔ bs.size ≠ 0) ∧
      (Complements bs ↔ bs.size ≠ 0) ∧
      (∀ args, equalBitsetP (bs :: args) = true ↔
        ∀ cs ∈ args, bs.size = cs.size ∧ ∀ i < bs.size, bs.bit i = cs.bit i) ∧
      AddressesBits bs := by
  refine ⟨computes_iff ?_ h, computes_iff ?_ h, computes_iff ?_ h, computes_iff ?_ h,
    computes_iff ?_ h, complements_iff, fun args => equalBitsetP_iff, addressesBits bs⟩
  · intro v w j _
    rw [BitVec.getLsbD_and]
  · intro v w j _
    rw [BitVec.getLsbD_or]
  · intro v w j _
    rw [BitVec.getLsbD_xor]
  · intro v w j hj
    by_cases hw : w ≠ 0
    · rw [if_pos hw, BitVec.getLsbD_and, BitVec.getLsbD_not]
      simp [hj]
    · rw [if_neg hw, not_not.mp hw]
      simp
  · intro v w j _
    rw [BitVec.getLsbD_or]

/-- Three bitsets of forty bits, with bits set in both words. -/
theorem bitset_algebra_three :
    let a : Bitset := ⟨40, [0x80000005, 0x3], rfl⟩
    let b : Bitset := ⟨40, [0x80000001, 0x82], rfl⟩
    let c : Bitset := ⟨40, [0x80000003, 0x42], rfl⟩
    Computes andBitset (fun x y => x && y) a [b, c] ∧
      Computes xorBitset (fun x y => x ^^ y) a [b, c] ∧
      Computes subtractBitset (fun x y => x && !y) a [b, c] ∧ Complements a ∧
      (equalBitsetP [a, b] = true ↔
        ∀ cs ∈ [b], a.size = cs.size ∧ ∀ i < a.size, a.bit i = cs.bit i) ∧ AddressesBits a := by
  intro a b c
  obtain ⟨hand, -, hxor, hsubtract, -, hnot, hequal, hbits⟩ :=
    bitset_algebra a [b, c] (by simp [a, b, c])
  have hsize : a.size ≠ 0 := by decide
  exact ⟨hand.mpr hsize, hxor.mpr hsize, hsubtract.mpr hsize, hnot.mpr hsize, hequal [b], hbits⟩

/-- Bitsets of no bits cannot be combined. -/
theorem bitset_of_no_bits :
    andBitset [make 0, make 0] = .error .undefined ∧ (make 0).notBitset = .error .undefined ∧
      ¬ Computes andBitset (fun x y => x && y) (make 0) [make 0] := by
  have hrun : andBitset [make 0, make 0] = .error .undefined := rfl
  refine ⟨hrun, rfl, ?_⟩
  rintro ⟨r, hr, -, -⟩
  rw [hrun] at hr
  cases hr

end Bitset

end Idio
