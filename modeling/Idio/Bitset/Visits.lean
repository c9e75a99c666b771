/-
  Bitset/Visits.lean --- what the folds over a bitset visit.

  `bitset-for-each-set` and `fold-bitset` test every bit of every word that has bits
  of the set, so they visit the members and whatever excess bits of the last of these
  words are set.  A bitset is clean if no bit from its size on is set.

  Each operation makes clean bitsets of clean ones but two: `not-bitset` complements
  the whole words, and the reader sets whole bytes for a range, also where the last
  of them is not wholly inside of the bitset.  `visits_members` has runs of the other
  operations, with `not-bitset` on whole words and ranges inside of the bitset.
-/
import Idio.Bitset.ReadItems
import Idio.CharSet.Folds

set_option autoImplicit false

namespace Idio.Bitset

open WordBits WhileLoop CharSet Bignum

/-! ## Clean bitsets -/

/-- `bitset-for-each-set`, with what its function changes for `s`. -/
def bitsetForEachSet {σ : Type} (bs : Bitset) (f : Nat → σ → Result σ) (s : σ) : Result σ :=
  foldBitset bs f s

/-- No bit at or above the size is set. -/
def Clean (bs : Bitset) : Prop := ∀ i, bs.size ≤ i → bs.bit i = false

/-- The indices that `bitset-ref` reports as set, in increasing order. -/
def members (bs : Bitset) : List Nat := (List.range bs.size).filter fun i => bs.ref i == .ok true

/-- The folds call the function on the members, each once and in order, and no other bit
is set. -/
def VisitsMembers (bs : Bitset) : Prop :=
  (∀ (β : Type) (f : Nat → β → Result β) (v : β),
    foldBitset bs f v = bs.members.foldlM (fun v i => f i v) v ∧
      bitsetForEachSet bs f v = bs.members.foldlM (fun v i => f i v) v) ∧
    Clean bs

theorem members_eq (bs : Bitset) : bs.members = setBits bs bs.size := by
  refine List.filter_congr fun i hi => ?_
  rw [ref_spec (List.mem_range.mp hi)]
  cases bs.bit i <;> rfl

theorem size_le_nUl (size : Nat) : size ≤ 32 * nUl size := by
  rw [nUl_eq]
  omega

variable {bs : Bitset}

theorem Clean.visitsMembers (h : Clean bs) : VisitsMembers bs := by
  have hbits : setBits bs (32 * nUl bs.size) = setBits bs bs.size := by
    obtain ⟨k, hk⟩ := Nat.exists_eq_add_of_le (size_le_nUl bs.size)
    rw [setBits, hk, List.range_add, List.filter_append]
    have hnil : (List.map (bs.size + ·) (List.range k)).filter bs.bit = [] := by
      refine List.filter_eq_nil_iff.mpr fun i hi => ?_
      obtain ⟨j, -, rfl⟩ := List.mem_map.mp hi
      rw [h _ (Nat.le_add_right _ _)]
      exact Bool.false_ne_true
    rw [hnil, List.append_nil, setBits]
  have hfold : ∀ (β : Type) (f : Nat → β → Result β) (v : β),
      foldBitset bs f v = bs.members.foldlM (fun v i => f i v) v := by
    intro β f v
    rw [foldBitset, foldWords_eq (nUl_le_length bs), hbits, members_eq]
  exact ⟨fun β f v => ⟨hfold β f v, hfold β f v⟩, h⟩

/-! ## Words written -/

variable {w : BitVec 32} {r : Bitset} {i : Nat}

theorem setWord_ok (h : bs.setWord i w = .ok r) :
    i < bs.words.length ∧ r.size = bs.size ∧ r.words = bs.words.set i w := by
  rw [setWord] at h
  split at h
  · rename_i hi
    cases h
    exact ⟨hi, rfl, rfl⟩
  · cases h

theorem word_ok (h : bs.word i = .ok w) :
    ∀ j < 32, w.getLsbD j = bs.bit (32 * i + j) := by
  intro j hj
  have hi : i < bs.words.length := by
    by_contra hge
    rw [word, List.getElem?_eq_none (by omega)] at h
    cases h
  rw [word_eq hi] at h
  cases h
  exact (bitAt_word bs.words i hj).symm

/-- A word written keeps a bitset clean if it has no excess bits. -/
theorem Clean.setWord (hbs : Clean bs) (h : bs.setWord i w = .ok r)
    (hw : ∀ j < 32, bs.size ≤ 32 * i + j → w.getLsbD j = false) : r.size = bs.size ∧ Clean r := by
  obtain ⟨hi, hsize, hwords⟩ := setWord_ok h
  refine ⟨hsize, fun k hk => ?_⟩
  rw [hsize] at hk
  rw [bit, hwords, bitAt_setWord hi]
  split
  · rename_i hdiv
    exact hw _ (Nat.mod_lt k (by decide)) (by omega)
  · exact hbs k hk

/-- The loop over the words, if what it does with one makes no excess bits. -/
theorem Clean.updateWords {f : Nat → BitVec 32 → Result (BitVec 32)} {n : Nat} {r' : Bitset}
    (hr : Clean r) (h : updateWords n f r = .ok r')
    (hf : ∀ i < n, ∀ w v, f i w = .ok v → ∀ j < 32, r.size ≤ 32 * i + j →
      w.getLsbD j = false → v.getLsbD j = false) : r'.size = r.size ∧ Clean r' := by
  induction n generalizing r' with
  | zero =>
    cases h
    exact ⟨rfl, hr⟩
  | succ n ih =>
    rw [updateWords_succ] at h
    obtain ⟨s, hs, h⟩ := bind_eq_ok.mp h
    obtain ⟨w, hw, h⟩ := bind_eq_ok.mp h
    obtain ⟨v, hv, h⟩ := bind_eq_ok.mp h
    obtain ⟨hsize, hclean⟩ := ih hs fun i hi => hf i (by omega)
    obtain ⟨hsize', hclean'⟩ := hclean.setWord h fun j hj hout => by
      rw [hsize] at hout
      refine hf n (Nat.lt_succ_self n) w v hv j hj hout ?_
      rw [word_ok hw j hj]
      exact hclean _ (by omega)
    exact ⟨hsize'.trans hsize, hclean'⟩

/-! ## The operations -/

theorem clean_make (size : Nat) : Clean (make size) := by
  intro i _
  have hword : (make size).words.getD (i / 32) 0 = 0 := by
    rw [make, List.getD_eq_getElem?_getD, List.getElem?_replicate]
    by_cases h : i / 32 < if size = 0 then 0 else size / bitsetBitsPerWord + 1
    · rw [if_pos h]
      rfl
    · rw [if_neg h]
      rfl
  rw [bit, bitAt, hword]
  exact BitVec.getLsbD_zero

theorem copy_ok (h : bs.copy = .ok r) : r = bs := by
  by_cases hsize : bs.size = 0
  · rw [copy_of_size_zero hsize] at h
    cases h
  · rw [copy_eq hsize] at h
    cases h
    rfl

theorem clean_combine {f : BitVec 32 → BitVec 32 → BitVec 32}
    (hf : ∀ v w : BitVec 32, ∀ j < 32, v.getLsbD j = false → w.getLsbD j = false →
      (f v w).getLsbD j = false) {args : List Bitset} (hargs : ∀ b ∈ args, Clean b)
    {o : Option Bitset} (ho : ∀ b, o = some b → Clean b) {r : Option Bitset}
    (h : combine f o args = .ok r) : ∀ b, r = some b → Clean b := by
  induction args generalizing o with
  | nil =>
    cases o <;> cases h
    · intro b hb
      cases hb
    · exact ho
  | cons bs args ih =>
    obtain ⟨hbs, hrest⟩ := List.forall_mem_cons.mp hargs
    cases o with
    | none =>
      rw [combine] at h
      obtain ⟨c, hc, h⟩ := bind_eq_ok.mp h
      exact ih hrest (by rintro b ⟨⟩; rw [copy_ok hc]; exact hbs) h
    | some s =>
      rw [combine] at h
      split at h
      · cases h
      · rename_i hsize
        obtain ⟨s', hs', h⟩ := bind_eq_ok.mp h
        refine ih hrest ?_ h
        rintro b ⟨⟩
        refine ((ho s rfl).updateWords hs' fun i _ w v hv j hj hout hw => ?_).2
        obtain ⟨u, hu, hv⟩ := bind_eq_ok.mp hv
        cases hv
        refine hf _ _ j hj hw ?_
        rw [word_ok hu j hj]
        exact hbs _ (by rw [not_not.mp hsize]; exact hout)

/-- The complement of whole words has no excess bits in the words it complements. -/
theorem clean_notBitset (hbs : Clean bs) (hsize : bs.size % bitsetBitsPerWord = 0)
    (h : bs.notBitset = .ok r) : Clean r := by
  obtain ⟨c, hc, h⟩ := bind_eq_ok.mp h
  rw [copy_ok hc] at h
  refine (hbs.updateWords h fun i hi w v _ j hj hout _ => ?_).2
  rw [nUl_eq] at hi
  rw [bitsetBitsPerWord] at hsize
  omega

/-! ## The reader -/

/-- Where a range starts or ends: a fixnum, or what `idio_bignum_uint64_t_value` makes of a
bignum. -/
def position : Num → Result Int
  | .fixnum v => .ok v
  | .bignum bn => (uint64Value bn).map fun v => wrap64 v

/-- The position that is written on one side of a hyphen. -/
def rangeEnd (s : Text) : Result Int := do
  let (n, _) ← readBignumRadix 'x' 16 s
  position n

/-- If the word is a range, its last byte is inside of the bitset, and its start does not
wrap round. -/
def RangeFits (size : Nat) (w : Word) : Prop :=
  ∀ hyphen, w.hyphen = some hyphen → ∀ first last : Int,
    rangeEnd (w.buf.take hyphen) = .ok first → rangeEnd (w.buf.drop (hyphen + 1)) = .ok last →
    first ≤ last → 0 ≤ first ∧ last + charBit ≤ size

/-- The word is one of those in the text, up to the closing brace. -/
inductive WordOf : Text → Word → Prop where
  | here {c : Char} {s : Text} {w : Word} : c ≠ '}' → readWord s [c] none none = .ok w →
      WordOf (c :: s) w
  | later {c : Char} {s : Text} {w w' : Word} : c ≠ '}' → readWord s [c] none none = .ok w →
      w.done = false → WordOf w.rest w' → WordOf (c :: s) w'

/-- The ranges of a literal are inside of the bitset, and its size is a fixnum. -/
def RangesFit (s : Text) : Prop :=
  ∀ c t w size, s = '#' :: 'B' :: '{' :: t → ∀ t', readWhitespace t = c :: t' → c ≠ '}' →
    readWord t' [c] none none = .ok w → readSize w.buf = .ok size →
    (size : Int) ≤ fixnumMax ∧ (w.done = false → ∀ w', WordOf w.rest w' → RangeFits size w')

variable {o : Int}

theorem readOffset_ok {msg : String} {n : Num} (h : readOffset msg n = .ok o) :
    position n = .ok o := by
  cases n with
  | fixnum v =>
    rw [readOffset] at h
    split at h
    · cases h
    · exact h
  | bignum bn =>
    rw [readOffset] at h
    split at h
    · cases h
    · exact h

theorem checkOffset_inv {what : String} {u : Unit} (h : checkOffset what bs o = .ok u)
    (hfix : (bs.size : Int) ≤ fixnumMax) :
    o ≤ bs.size ∧ o.tmod 8 = 0 := by
  have hs : bs.ssize = bs.size := by
    simp only [fixnumMax] at hfix
    rw [ssize, wrap64_of_mem (by simp only [intmaxMin]; omega) (by simp only [intmaxMax]; omega)]
  rw [checkOffset, hs] at h
  split at h
  · cases h
  · rename_i hle
    split at h
    · cases h
    · rename_i hmod
      exact ⟨not_lt.mp hle, not_not.mp hmod⟩

/-- What `readRange` does once the end of the range is read. -/
theorem rangeRest_ok {first last : Int} {p : Prop} [Decidable p] {msg msg' : String}
    {r : Bitset × Int} (h : (if p then readError msg else do
      checkOffset "range end" bs last
      if first > last then readError msg' else
        whileLoop .diverges (fun st : Bitset × Int => decide (st.2 ≤ last)) (rangeStep last)
          (last - first + 2).toNat (bs, first)) = .ok r) :
    checkOffset "range end" bs last = .ok () ∧ first ≤ last ∧
      whileLoop .diverges (fun st : Bitset × Int => decide (st.2 ≤ last)) (rangeStep last)
        (last - first + 2).toNat (bs, first) = .ok r := by
  split at h
  · cases h
  obtain ⟨u, hcheck, h⟩ := bind_eq_ok.mp h
  split at h
  · cases h
  rename_i hle
  exact ⟨hcheck, not_lt.mp hle, h⟩

variable {bs' : Bitset}

/-- A range inside of the bitset. -/
theorem Clean.readRange (hbs : Clean bs) (hfix : (bs.size : Int) ≤ fixnumMax) {w : Word}
    {hyphen : Nat} (hw : w.hyphen = some hyphen) (hfits : RangeFits bs.size w)
    (h : readRange bs w hyphen = .ok (bs', o)) : Clean bs' ∧ bs'.size = bs.size ∧ o ≤ bs.size := by
  obtain ⟨⟨n, tell⟩, hn, h⟩ := bind_eq_ok.mp h
  obtain ⟨first, hfirst, h⟩ := bind_eq_ok.mp h
  split at h
  · cases h
  obtain ⟨u, hcheck, h⟩ := bind_eq_ok.mp h
  obtain ⟨⟨m, tell'⟩, hm, h⟩ := bind_eq_ok.mp h
  obtain ⟨last, hlast, hcheck', hle, h⟩ : ∃ last, position m = .ok last ∧
      checkOffset "range end" bs last = .ok () ∧ first ≤ last ∧
      whileLoop .diverges (fun st : Bitset × Int => decide (st.2 ≤ last)) (rangeStep last)
        (last - first + 2).toNat (bs, first) = .ok (bs', o) := by
    cases m with
    | fixnum v => exact ⟨v, rfl, rangeRest_ok h⟩
    | bignum bn =>
      obtain ⟨last, hlast, h⟩ := bind_eq_ok.mp h
      exact ⟨last, hlast, rangeRest_ok h⟩
  have hfirst' : rangeEnd (w.buf.take hyphen) = .ok first :=
    bind_eq_ok.mpr ⟨(n, tell), hn, readOffset_ok hfirst⟩
  have hlast' : rangeEnd (w.buf.drop (hyphen + 1)) = .ok last :=
    bind_eq_ok.mpr ⟨(m, tell'), hm, hlast⟩
  obtain ⟨hpos, hin⟩ := hfits hyphen hw first last hfirst' hlast' hle
  obtain ⟨-, hfirst8⟩ := checkOffset_inv hcheck hfix
  obtain ⟨-, hlast8⟩ := checkOffset_inv hcheck' hfix
  obtain ⟨a, rfl⟩ := Int.eq_ofNat_of_zero_le hpos
  obtain ⟨b, rfl⟩ := Int.eq_ofNat_of_zero_le (show 0 ≤ last by omega)
  have ha8 : ((a % 8 : Nat) : Int) = 0 := hfirst8
  have hb8 : ((b % 8 : Nat) : Int) = 0 := hlast8
  simp only [charBit] at hin
  obtain ⟨r, hrun, hsize, hbits⟩ := @rangeLoop_spec bs a b (by omega) (by omega) (by omega)
    (by omega) hfix
  rw [hrun] at h
  cases h
  refine ⟨fun i hi => ?_, hsize, by push_cast; exact hin⟩
  rw [hbits, if_neg (by omega)]
  exact hbs i (by omega)

variable {s : Text}

/-- Only the bits of the block are set. -/
theorem readBits_high {new new' : BitVec 32} (h : readBits s i new = .ok new') {j : Nat}
    (hj : j < 32) (hhigh : i + s.length ≤ j) : new'.getLsbD j = new.getLsbD j := by
  induction s generalizing i new with
  | nil =>
    cases h
    rfl
  | cons c s ih =>
    rw [List.length_cons] at hhigh
    rw [readBits] at h
    split at h
    · exact ih h (by omega)
    · split at h
      · rw [ih h (by omega), BitVec.getLsbD_or, getLsbD_oneShift i hj,
          decide_eq_false (show ¬ j = i by omega), Bool.or_false]
      · cases h

/-- A block ends inside of the bitset, or is refused. -/
theorem Clean.storeBlock (hbs : Clean bs) (hfix : (bs.size : Int) ≤ fixnumMax) {bits : Text}
    {o' : Int} (ho : o ≤ bs.size) (h : storeBlock bs bits o = .ok (bs', o')) :
    Clean bs' ∧ bs'.size = bs.size ∧ o' ≤ bs.size := by
  rw [Bitset.storeBlock] at h
  split at h
  · cases h
  rename_i hlen
  split at h
  · cases h
  rename_i hin
  obtain ⟨new, hnew, h⟩ := bind_eq_ok.mp h
  split at h
  · cases h
  rename_i hneg
  obtain ⟨a, rfl⟩ := Int.eq_ofNat_of_zero_le (not_lt.mp hneg)
  simp only [charBit, fixnumMax] at hlen hfix
  have hsum : sizeT ((a : Int) + bits.length) = a + bits.length := by
    rw [show ((a : Int) + bits.length) = ((a + bits.length : Nat) : Int) by push_cast; rfl]
    rw [sizeT, Int.emod_eq_of_lt (by omega) (by omega), Int.toNat_natCast]
  have hdiv : sizeT ((a : Int).tdiv bitsetBitsPerWord) = a / 32 := by
    rw [bitsetBitsPerWord, show ((a : Int).tdiv (32 : Nat)) = ((a / 32 : Nat) : Int) from rfl]
    exact sizeT_natCast (by simp only [fixnumMax]; omega)
  have hb : (((a : Int).tmod bitsetBitsPerWord).tdiv charBit).toNat = a % 32 / 8 := rfl
  rw [hsum] at hin
  obtain ⟨ul, hul, h⟩ := bind_eq_ok.mp h
  obtain ⟨r, hset, h⟩ := bind_eq_ok.mp h
  rw [hdiv] at hul
  rw [hdiv, hb] at hset
  cases h
  obtain ⟨hsize, hclean⟩ := hbs.setWord hset fun j hj hout => by
    have hold : ul.getLsbD j = false := by
      rw [word_ok hul j hj]
      exact hbs _ hout
    rw [BitVec.getLsbD_or, BitVec.getLsbD_and, hold, Bool.false_and, Bool.false_or,
      BitVec.getLsbD_shiftLeft, readBits_high hnew (by omega) (by simp only [charBit]; omega)]
    simp
  exact ⟨hclean, hsize, by omega⟩

theorem Clean.readBlock (hbs : Clean bs) (hfix : (bs.size : Int) ≤ fixnumMax) {w : Word} {o' : Int}
    (ho : o ≤ bs.size) (h : readBlock bs w o = .ok (bs', o')) :
    Clean bs' ∧ bs'.size = bs.size ∧ o' ≤ bs.size := by
  obtain ⟨o₁, ho₁, h⟩ := bind_eq_ok.mp h
  refine hbs.storeBlock hfix ?_ h
  rw [blockOffset] at ho₁
  split at ho₁
  · cases ho₁
    exact ho
  · obtain ⟨⟨n, tell⟩, hn, ho₁⟩ := bind_eq_ok.mp ho₁
    obtain ⟨o₂, ho₂, ho₁⟩ := bind_eq_ok.mp ho₁
    obtain ⟨u, hcheck, ho₁⟩ := bind_eq_ok.mp ho₁
    cases ho₁
    exact (checkOffset_inv hcheck hfix).1

/-- The state of the reader once the size is known: the bitset so far is clean, and what is to
come fits. -/
def ReadState.Fine (size : Nat) (st : ReadState) : Prop :=
  ∃ bs, st.bs = some bs ∧ bs.size = size ∧ Clean bs ∧ st.offset ≤ size ∧
    (st.done = false → ∀ w, WordOf st.text w → RangeFits size w)

theorem ReadState.Fine.step {size : Nat} (hfix : (size : Int) ≤ fixnumMax) {st st' : ReadState}
    (hst : st.Fine size) (hdone : st.done = false) (h : readStep st = .ok st') : st'.Fine size := by
  obtain ⟨bs, hbs, rfl, hclean, hoffset, hwords⟩ := hst
  rw [readStep] at h
  split at h
  · cases h
  rename_i c s htext
  split at h
  · cases h
    exact ⟨bs, hbs, rfl, hclean, hoffset, fun hd => absurd hd (by simp)⟩
  rename_i hc
  obtain ⟨w, hw, h⟩ := bind_eq_ok.mp h
  have hhere : WordOf st.text w := by
    rw [htext]
    exact .here hc hw
  have hlater : w.done = false → ∀ w', WordOf w.rest w' → RangeFits bs.size w' := by
    intro hd w' hw'
    refine hwords hdone w' ?_
    rw [htext]
    exact .later hc hw hd hw'
  cases hhyphen : w.hyphen with
  | none =>
    rw [storeWord, hbs, hhyphen] at h
    obtain ⟨⟨bs', o⟩, hblock, h⟩ := bind_eq_ok.mp h
    cases h
    obtain ⟨hclean', hsize, ho⟩ := hclean.readBlock hfix hoffset hblock
    exact ⟨bs', rfl, hsize, hclean', ho, hlater⟩
  | some hyphen =>
    rw [storeWord, hbs, hhyphen] at h
    obtain ⟨⟨bs', o⟩, hrange, h⟩ := bind_eq_ok.mp h
    cases h
    obtain ⟨hclean', hsize, ho⟩ := hclean.readRange hfix hhyphen (hwords hdone w hhere) hrange
    exact ⟨bs', rfl, hsize, hclean', ho, hlater⟩

theorem readText_ok {o : Option Bitset} (h : readText s = .ok o) :
    ∃ t st, s = '#' :: 'B' :: '{' :: t ∧ st.bs = o ∧
      whileLoop .diverges (fun st => !st.done) readStep (t.length + 1)
        ⟨readWhitespace t, none, 0, false⟩ = .ok st := by
  unfold readText at h
  split at h
  · unfold readBitset at h
    split at h
    · cases h
    · split at h
      · rename_i hc
        obtain ⟨st, hloop, h⟩ := bind_eq_ok.mp h
        cases h
        exact ⟨_, st, by rw [hc], rfl, hloop⟩
      · cases h
  · cases h

/-- A literal whose ranges fit is a clean bitset. -/
theorem clean_readText (hs : RangesFit s) (h : readText s = .ok (some bs)) : Clean bs := by
  obtain ⟨t, st, hs', hbs, hloop⟩ := readText_ok h
  rw [whileLoop] at hloop
  simp only [Bool.not_false, if_true] at hloop
  split at hloop
  swap
  · cases hloop
  rename_i st₁ hstep
  rw [readStep] at hstep
  cases htext : readWhitespace t with
  | nil =>
    rw [htext] at hstep
    cases hstep
  | cons c t' =>
    rw [htext] at hstep
    by_cases hc : c = '}'
    · -- no size was read
      simp only [if_pos hc] at hstep
      cases hstep
      rw [whileLoop_of_false _ rfl] at hloop
      cases hloop
      cases hbs
    · simp only [if_neg hc] at hstep
      obtain ⟨w, hw, hstep⟩ := bind_eq_ok.mp hstep
      obtain ⟨size, hsize, hstep⟩ := bind_eq_ok.mp hstep
      cases hstep
      obtain ⟨hfix, hwords⟩ := hs c t w size hs' t' htext hc hw hsize
      have hfine : ReadState.Fine size ⟨w.rest, some (make size), 0, w.done⟩ :=
        ⟨make size, rfl, rfl, clean_make size, by positivity, hwords⟩
      obtain ⟨bs', hbs', -, hclean, -⟩ := whileLoop_invariant
        (fun st st' hst hcond hbody => hst.step hfix (by simpa using hcond) hbody) hfine hloop
      rw [hbs] at hbs'
      cases hbs'
      exact hclean

/-! ## Runs -/

/-- A call that makes or changes a bitset; the numbers say which of the bitsets made so far
it is about. -/
inductive BitsetOp where
  | makeBitset (size : Nat)
  | readBitset (s : Text)
  | bitsetSet (x bit : Nat)
  | bitsetClear (x bit : Nat)
  | copyBitset (x : Nat)
  | mergeBitset (xs : List Nat)
  | andBitset (xs : List Nat)
  | iorBitset (xs : List Nat)
  | xorBitset (xs : List Nat)
  | subtractBitset (xs : List Nat)
  | notBitset (x : Nat)

/-- A bitset made earlier. -/
def lookup (st : List Bitset) (x : Nat) : Result Bitset :=
  match st[x]? with
  | some bs => .ok bs
  | none => .error .undefined

/-- A bitset that was made, unless it is `#n`. -/
def made (st : List Bitset) (r : Result (Option Bitset)) : Result (List Bitset) := do
  pure (st ++ (← r).toList)

/-- One call. -/
def BitsetOp.step (st : List Bitset) : BitsetOp → Result (List Bitset)
  | .makeBitset size => .ok (st ++ [make size])
  | .readBitset s => made st (readText s)
  | .bitsetSet x bit => do pure (st.set x (← (← lookup st x).set bit))
  | .bitsetClear x bit => do pure (st.set x (← (← lookup st x).clear bit))
  | .copyBitset x => do pure (st ++ [← (← lookup st x).copy])
  | .mergeBitset xs => do made st (Bitset.mergeBitset (← xs.mapM (lookup st)))
  | .andBitset xs => do made st (Bitset.andBitset (← xs.mapM (lookup st)))
  | .iorBitset xs => do made st (Bitset.iorBitset (← xs.mapM (lookup st)))
  | .xorBitset xs => do made st (Bitset.xorBitset (← xs.mapM (lookup st)))
  | .subtractBitset xs => do made st (Bitset.subtractBitset (← xs.mapM (lookup st)))
  | .notBitset x => do pure (st ++ [← (← lookup st x).notBitset])

/-- A call that sets no excess bits: a complement is of whole words, and the ranges of a
literal fit. -/
def BitsetOp.Fits (st : List Bitset) : BitsetOp → Prop
  | .readBitset s => RangesFit s
  | .notBitset x => ∀ bs, st[x]? = some bs → bs.size % bitsetBitsPerWord = 0
  | _ => True

/-- The bitsets that calls make, each of which fits. -/
inductive Reachable : List Bitset → Prop where
  | start : Reachable []
  | call {st st' : List Bitset} {op : BitsetOp} : Reachable st → op.Fits st →
      op.step st = .ok st' → Reachable st'

theorem lookup_ok {st : List Bitset} {x : Nat} (h : lookup st x = .ok bs) :
    st[x]? = some bs := by
  rw [lookup] at h
  split at h
  · rename_i heq
    cases h
    exact heq
  · cases h

theorem mem_of_lookup {st : List Bitset} {x : Nat} (h : lookup st x = .ok bs) :
    bs ∈ st := List.mem_of_getElem? (lookup_ok h)

/-- The bitsets that a call looks up are among those made. -/
theorem mem_of_mapM_lookup {st : List Bitset} {xs : List Nat} {l : List Bitset}
    (h : xs.mapM (lookup st) = .ok l) : ∀ b ∈ l, b ∈ st := by
  induction xs generalizing l with
  | nil =>
    cases h
    simp
  | cons x xs ih =>
    rw [List.mapM_cons] at h
    obtain ⟨b, hb, h⟩ := bind_eq_ok.mp h
    obtain ⟨l', hl', h⟩ := bind_eq_ok.mp h
    cases h
    exact List.forall_mem_cons.mpr ⟨mem_of_lookup hb, ih hl'⟩

section Step

variable {st st' : List Bitset} (hst : ∀ bs ∈ st, Clean bs)
include hst

theorem clean_append {r : Bitset} (hr : Clean r) (h : st' = st ++ [r]) : ∀ bs ∈ st', Clean bs := by
  intro bs hbs
  rw [h, List.mem_append, List.mem_singleton] at hbs
  rcases hbs with hbs | rfl
  · exact hst bs hbs
  · exact hr

theorem clean_made {r : Result (Option Bitset)} (hr : ∀ b, r = .ok (some b) → Clean b)
    (h : made st r = .ok st') : ∀ bs ∈ st', Clean bs := by
  obtain ⟨o, ho, h⟩ := bind_eq_ok.mp h
  cases h
  cases o with
  | none =>
    intro bs hbs
    exact hst bs (by simpa using hbs)
  | some r => exact clean_append hst (hr r ho) rfl

theorem clean_changed {x : Nat} {r : Bitset} (hr : Clean r) : ∀ bs ∈ st.set x r, Clean bs := by
  intro bs hbs
  rcases List.mem_or_eq_of_mem_set hbs with hbs | rfl
  · exact hst bs hbs
  · exact hr

/-- An operation that combines the words of the bitsets it is given. -/
theorem clean_combined {f : BitVec 32 → BitVec 32 → BitVec 32}
    (hf : ∀ v w : BitVec 32, ∀ j < 32, v.getLsbD j = false → w.getLsbD j = false →
      (f v w).getLsbD j = false) {xs : List Nat}
    (h : (do made st (combine f none (← xs.mapM (lookup st)))) = .ok st') :
    ∀ bs ∈ st', Clean bs := by
  obtain ⟨l, hl, h⟩ := bind_eq_ok.mp h
  refine clean_made hst (fun b hb => ?_) h
  exact clean_combine hf (fun b hb => hst b (mem_of_mapM_lookup hl b hb)) (by simp) hb b rfl

/-- A call that fits keeps all bitsets clean. -/
theorem BitsetOp.clean_step {op : BitsetOp} (hop : op.Fits st) (h : op.step st = .ok st') :
    ∀ bs ∈ st', Clean bs := by
  cases op with
  | makeBitset size =>
    cases h
    exact clean_append hst (clean_make size) rfl
  | readBitset s => exact clean_made hst (fun b hb => clean_readText hop hb) h
  | bitsetSet x bit =>
    obtain ⟨bs, hbs, h⟩ := bind_eq_ok.mp h
    obtain ⟨r, hr, h⟩ := bind_eq_ok.mp h
    cases h
    have hbit : bit < bs.size := by
      by_contra hge
      rw [Bitset.set, if_pos (by omega)] at hr
      cases hr
    obtain ⟨r', hr', hsize, hbits⟩ := set_spec hbit
    rw [hr'] at hr
    cases hr
    refine clean_changed hst fun i hi => ?_
    rw [hsize] at hi
    rw [hbits, if_neg (by omega)]
    exact hst bs (mem_of_lookup hbs) i hi
  | bitsetClear x bit =>
    obtain ⟨bs, hbs, h⟩ := bind_eq_ok.mp h
    obtain ⟨r, hr, h⟩ := bind_eq_ok.mp h
    cases h
    have hbit : bit < bs.size := by
      by_contra hge
      rw [clear, if_pos (by omega)] at hr
      cases hr
    obtain ⟨r', hr', hsize, hbits⟩ := clear_spec hbit
    rw [hr'] at hr
    cases hr
    refine clean_changed hst fun i hi => ?_
    rw [hsize] at hi
    rw [hbits, if_neg (by omega)]
    exact hst bs (mem_of_lookup hbs) i hi
  | copyBitset x =>
    obtain ⟨bs, hbs, h⟩ := bind_eq_ok.mp h
    obtain ⟨r, hr, h⟩ := bind_eq_ok.mp h
    cases h
    refine clean_append hst ?_ rfl
    rw [copy_ok hr]
    exact hst bs (mem_of_lookup hbs)
  | mergeBitset xs =>
    refine clean_combined hst (fun v w j _ hv hw => ?_) h
    rw [BitVec.getLsbD_or, hv, hw, Bool.or_false]
  | andBitset xs =>
    refine clean_combined hst (fun v w j _ hv _ => ?_) h
    rw [BitVec.getLsbD_and, hv, Bool.false_and]
  | iorBitset xs =>
    refine clean_combined hst (fun v w j _ hv hw => ?_) h
    rw [BitVec.getLsbD_or, hv, hw, Bool.or_false]
  | xorBitset xs =>
    refine clean_combined hst (fun v w j _ hv hw => ?_) h
    rw [BitVec.getLsbD_xor, hv, hw, Bool.xor_false]
  | subtractBitset xs =>
    refine clean_combined hst (fun v w j _ hv _ => ?_) h
    split
    · rw [BitVec.getLsbD_and, hv, Bool.false_and]
    · exact hv
  | notBitset x =>
    obtain ⟨bs, hbs, h⟩ := bind_eq_ok.mp h
    obtain ⟨r, hr, h⟩ := bind_eq_ok.mp h
    cases h
    exact clean_append hst
      (clean_notBitset (hst bs (mem_of_lookup hbs)) (hop bs (lookup_ok hbs)) hr) rfl

end Step

theorem Reachable.clean {st : List Bitset} (h : Reachable st) : ∀ bs ∈ st, Clean bs := by
  induction h with
  | start => simp
  | call _ hop hstep ih => exact BitsetOp.clean_step ih hop hstep

/-- A literal of 32 bits with the range of its first two bytes. -/
def twoBytes : Text := '#' :: 'B' :: '{' :: " 32 0-8 \x7d".toList

theorem twoBytes_rangesFit : RangesFit twoBytes := by
  intro c t w size hs t' ht' _ hw hsize
  cases hs
  have hspace : readWhitespace " 32 0-8 \x7d".toList = '3' :: "2 0-8 \x7d".toList := by rfl
  cases hspace.symm.trans ht'
  have hword : readWord "2 0-8 \x7d".toList ['3'] none none =
      .ok ⟨"32".toList, none, none, false, '0' :: "-8 \x7d".toList⟩ := by rfl
  cases hword.symm.trans hw
  have h32 : readSize "32".toList = .ok 32 := by decide +kernel
  cases h32.symm.trans hsize
  refine ⟨by decide, fun _ w' hw' => ?_⟩
  have hrange : readWord "-8 \x7d".toList ['0'] none none =
      .ok ⟨"0-8".toList, none, some 1, false, ['}']⟩ := by rfl
  have hbytes : RangeFits 32 ⟨"0-8".toList, none, some 1, false, ['}']⟩ := by
    intro hyphen hhyphen first last hfirst hlast _
    cases hhyphen
    have h0 : rangeEnd "0".toList = .ok 0 := by decide +kernel
    have h8 : rangeEnd "8".toList = .ok 8 := by decide +kernel
    cases h0.symm.trans hfirst
    cases h8.symm.trans hlast
    decide
  cases hw' with
  | here _ hw' =>
    cases hrange.symm.trans hw'
    exact hbytes
  | later _ hw' _ hlater =>
    cases hrange.symm.trans hw'
    cases hlater with
    | here hbrace _ => exact absurd rfl hbrace
    | later hbrace _ _ _ => exact absurd rfl hbrace

theorem readText_twoBytes :
    readText twoBytes = .ok (some ⟨32, [0xffff#32, 0], rfl⟩) := by
  have hrun : (readText twoBytes).map (fun o => o.map fun bs => (bs.size, bs.words)) =
      .ok (some (32, [0xffff#32, 0])) := by decide +kernel
  rcases hr : readText twoBytes with e | _ | bs
  · rw [hr] at hrun
    cases hrun
  · rw [hr] at hrun
    cases hrun
  · rw [hr] at hrun
    obtain ⟨size, words, hwords⟩ := bs
    cases hrun
    rfl

/-- **The folds visit the members.**  In every state that calls that fit have reached, the
folds over a bitset visit its members, and it has no other bits. -/
theorem visits_members {st : List Bitset} (h : Reachable st) : ∀ bs ∈ st, VisitsMembers bs :=
  fun bs hbs => (h.clean bs hbs).visitsMembers

/-- A bit set, the complement of its 32 bits, a literal, and bits set in one of the two only. -/
theorem visits_members_run : ∃ st, Reachable st ∧
    st.map Bitset.words = [[0x20#32, 0], [0xffffffdf#32, 0], [0xffff#32, 0], [0xffff0020#32, 0]] ∧
      ∀ bs ∈ st, VisitsMembers bs := by
  have hmake : Reachable [make 32] := @Reachable.call [] _ (.makeBitset 32) .start trivial rfl
  have hset : Reachable [⟨32, [0x20#32, 0], rfl⟩] :=
    @Reachable.call _ _ (.bitsetSet 0 5) hmake trivial rfl
  have hnot : Reachable [⟨32, [0x20#32, 0], rfl⟩, ⟨32, [0xffffffdf#32, 0], rfl⟩] := by
    refine @Reachable.call _ _ (.notBitset 0) hset ?_ rfl
    rintro bs ⟨⟩
    rfl
  have hread : Reachable [⟨32, [0x20#32, 0], rfl⟩, ⟨32, [0xffffffdf#32, 0], rfl⟩,
      ⟨32, [0xffff#32, 0], rfl⟩] := by
    refine @Reachable.call _ _ (.readBitset twoBytes) hnot twoBytes_rangesFit ?_
    rw [BitsetOp.step, readText_twoBytes]
    rfl
  have hxor : Reachable [⟨32, [0x20#32, 0], rfl⟩, ⟨32, [0xffffffdf#32, 0], rfl⟩,
      ⟨32, [0xffff#32, 0], rfl⟩, ⟨32, [0xffff0020#32, 0], rfl⟩] :=
    @Reachable.call _ _ (.xorBitset [1, 2]) hread trivial rfl
  exact ⟨_, hxor, rfl, visits_members hxor⟩

/-- The bitset visits bits that are not members, or has them. -/
theorem not_visitsMembers (hi : bs.size ≤ i) (h : bs.bit i = true) :
    ¬ VisitsMembers bs := by
  intro hv
  rw [hv.2 i hi] at h
  cases h

/-- The complement of the three bits of a new bitset: 32 bits are visited, and bit 31 is set;
and a range that reaches over the end of a bitset of twelve bits. -/
theorem excess_bits :
    (∃ bs, (make 3).notBitset = .ok bs ∧ bs.size = 3 ∧
      foldBitset bs (fun _ v => .ok (v + 1)) 0 = .ok 32 ∧ bs.bit 31 = true ∧ ¬ VisitsMembers bs) ∧
    (∃ bs, readText "#B{ 12 0-8 }".toList = .ok (some bs) ∧ bs.size = 12 ∧ bs.bit 15 = true ∧
      ¬ VisitsMembers bs) := by
  have hnot : ∃ bs, (make 3).notBitset = .ok bs ∧ bs.size = 3 ∧
      foldBitset bs (fun _ v => .ok (v + 1)) 0 = .ok 32 ∧ bs.bit 31 = true :=
    ⟨_, rfl, rfl, rfl, rfl⟩
  have hrun : (readText "#B{ 12 0-8 }".toList).map (fun o => o.map fun bs => (bs.size, bs.bit 15)) =
      .ok (some (12, true)) := by decide +kernel
  have hread : ∃ bs, readText "#B{ 12 0-8 }".toList = .ok (some bs) ∧ bs.size = 12 ∧
      bs.bit 15 = true := by
    rcases hr : readText "#B{ 12 0-8 }".toList with e | _ | bs
    · rw [hr] at hrun
      cases hrun
    · rw [hr] at hrun
      cases hrun
    · rw [hr] at hrun
      simp only [Except.map, Option.map_some, Except.ok.injEq, Option.some.injEq,
        Prod.mk.injEq] at hrun
      exact ⟨bs, rfl, hrun⟩
  obtain ⟨bs, hbs, hsize, hfold, hbit⟩ := hnot
  obtain ⟨bs', hbs', hsize', hbit'⟩ := hread
  exact ⟨⟨bs, hbs, hsize, hfold, hbit, not_visitsMembers (by omega) hbit⟩,
    ⟨bs', hbs', hsize', hbit', not_visitsMembers (by omega) hbit'⟩⟩

end Idio.Bitset
