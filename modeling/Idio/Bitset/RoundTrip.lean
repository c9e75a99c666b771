/-
  Bitset/RoundTrip.lean --- printed bitsets are read back.

  Along the loops of the printer `Printed` is kept: reading what has been printed
  gives the bits below `count`, or below the start of the range that is not written
  yet, and whenever the next block comes without an offset of its own the reader's
  offset is `count`.

  There are two exceptions, both at the size.  A bitset of no bits cannot be printed,
  because there is no word to look at, and a size that is not a fixnum is refused by
  the reader: `print_read_iff` says that these are the only ones.
-/
import Idio.Bitset.ReadItems

set_option autoImplicit false

namespace Idio

open Bignum HexString DigitString WhileLoop WordBits

namespace Bitset

/-! ## What has been printed -/

/-- Where the printer is with the bitset `B`. -/
structure Printed (B : Bitset) (st : PrintState) : Prop where
  reads : ∃ text bs o, st.text = sizeText B.size ++ text ∧ Reads text (make B.size) 0 bs o ∧
    bs.size = B.size ∧
    (∀ i < B.size, bs.bit i = (decide (i < st.range.getD st.count) && B.bit i)) ∧
    (st.lead = false → st.count < B.size → o = st.count)
  range : ∀ first, st.range = some first →
    first % 8 = 0 ∧ st.count % 8 = 0 ∧ first < st.count ∧ st.count < B.size + 8 ∧
      st.lead = true ∧ ∀ i < B.size, first ≤ i → i < st.count → B.bit i = true

variable {B : Bitset} (hfix : (B.size : Int) ≤ fixnumMax)

include hfix in
/-- Writing a range that is over. -/
theorem Printed.endRange {st : PrintState} (h : Printed B st) :
    Printed B { st.endRange with lead := st.lead && st.range.isNone } ∧
      st.endRange.range = none ∧ st.endRange.count = st.count ∧ st.endRange.lead = st.lead := by
  cases hr : st.range with
  | none =>
    have hend : st.endRange = st := by rw [PrintState.endRange, hr]
    rw [hend]
    refine ⟨?_, hr, rfl, rfl⟩
    simpa using h
  | some first =>
    obtain ⟨⟨text, bs, o, htext, hreads, hsize, hbits, -⟩, hrange⟩ := h
    obtain ⟨h1, h2, h3, h4, -, hall⟩ := hrange first hr
    have hend : st.endRange =
        { st with text := st.text ++ rangeText first (st.count - 8), range := none } := by
      rw [PrintState.endRange, hr]
      rfl
    rw [hend]
    refine ⟨⟨?_, fun _ hf => by cases hf⟩, rfl, rfl, rfl⟩
    obtain ⟨bs', hreads', hsize', hbits'⟩ :=
      @reads_range bs first (st.count - 8) h1 (by omega) (by omega)
        (by omega) (by omega) o
    refine ⟨text ++ rangeText first (st.count - 8), bs', _, ?_, hreads.append hreads',
      hsize'.trans hsize, fun i hi => ?_, fun _ _ => ?_⟩
    · rw [htext, List.append_assoc]
    · rw [hbits', hbits i hi, hr, Option.getD_some]
      dsimp only [Option.getD_none]
      by_cases hin : first ≤ i ∧ i < st.count - 8 + 8
      · have hlt : i < st.count := by omega
        rw [if_pos hin, hall i hi hin.1 hlt]
        simp [hlt]
      · rw [if_neg hin]
        by_cases hlt : i < first
        · have : i < st.count := by omega
          simp [hlt, this]
        · have : ¬ i < st.count := by omega
          simp [hlt, this]
    · push_cast
      omega

/-- Bits that are not set are skipped. -/
theorem Printed.skip {st : PrintState} (h : Printed B st) (hr : st.range = none) (n : Nat)
    (hzero : ∀ i < B.size, st.count ≤ i → i < st.count + n → B.bit i = false) :
    Printed B { st with count := st.count + n, lead := true } := by
  obtain ⟨⟨text, bs, o, htext, hreads, hsize, hbits, -⟩, -⟩ := h
  refine ⟨⟨text, bs, o, htext, hreads, hsize, fun i hi => ?_, fun hl => by cases hl⟩,
    fun first hf => by rw [hr] at hf; cases hf⟩
  rw [hbits i hi, hr]
  dsimp only [Option.getD_none]
  by_cases h1 : i < st.count
  · have : i < st.count + n := by omega
    simp [h1, this]
  · by_cases h2 : i < st.count + n
    · rw [hzero i hi (by omega) h2]
      simp
    · simp [h1, h2]

include hfix in
/-- The end of a range and then bits that are not set. -/
theorem Printed.endRange_skip {st : PrintState} (h : Printed B st) (n : Nat)
    (hzero : ∀ i < B.size, st.count ≤ i → i < st.count + n → B.bit i = false) :
    Printed B { st.endRange with count := st.count + n, lead := true } := by
  obtain ⟨hend, hr, hcount, -⟩ := h.endRange hfix
  have hskip := hend.skip hr n (by
    intro i hi
    dsimp only
    rw [hcount]
    exact hzero i hi)
  rw [← hcount]
  exact hskip

/-- A byte with all bits set starts a range, or is added to it. -/
theorem Printed.full {st : PrintState} (h : Printed B st) (hlt : st.count < B.size)
    (hcount : st.count % 8 = 0)
    (hone : ∀ i < B.size, st.count ≤ i → i < st.count + 8 → B.bit i = true) :
    Printed B { st with
      range := some (st.range.getD st.count), count := st.count + 8, lead := true } := by
  obtain ⟨⟨text, bs, o, htext, hreads, hsize, hbits, -⟩, hrange⟩ := h
  refine ⟨⟨text, bs, o, htext, hreads, hsize, hbits, fun hl => by cases hl⟩, ?_⟩
  rintro first hf
  cases hf
  cases hr : st.range with
  | none =>
    dsimp only [Option.getD_none]
    exact ⟨hcount, by omega, by omega, by omega, rfl, hone⟩
  | some first =>
    obtain ⟨h1, h2, h3, h4, -, hall⟩ := hrange first hr
    dsimp only [Option.getD_some]
    refine ⟨h1, by omega, by omega, by omega, rfl, fun i hi hle hi8 => ?_⟩
    by_cases hold : i < st.count
    · exact hall i hi hle hold
    · exact hone i hi (by omega) hi8

/-! ## Blocks -/

/-- The bits of a byte as far as the size goes. -/
theorem blockBits_spec (w : BitVec 32) (offset : Nat) {size n count : Nat} (hn : n ≤ 8)
    (hle : count ≤ size) :
    ∃ l, (blockBits w offset size n count).1 = bitChars l ∧ l.length = min n (size - count) ∧
      (∀ k < l.length, l.getD k false = w.getLsbD (offset + (8 - n + k))) ∧
      (blockBits w offset size n count).2 = if n ≤ size - count then count + n else size + 1 := by
  induction n generalizing count with
  | zero => exact ⟨[], rfl, by simp, fun k hk => absurd hk (by simp), by simp [blockBits]⟩
  | succ n ih =>
    rw [blockBits]
    dsimp only
    by_cases hend : count + 1 > size
    · have hsize : ¬ n + 1 ≤ size - count := by omega
      rw [if_pos hend, if_neg hsize]
      exact ⟨[], rfl, by simp; omega, fun k hk => absurd hk (by simp), by simp; omega⟩
    · obtain ⟨l, htext, hlen, hbits, hcount⟩ := @ih (count + 1) (by omega) (by omega)
      rw [if_neg hend]
      dsimp only
      refine ⟨w.getLsbD (offset + (8 - (n + 1))) :: l, ?_, by rw [List.length_cons]; omega, ?_, ?_⟩
      · rw [htext]
        rfl
      · intro k hk
        rw [List.length_cons] at hk
        cases k with
        | zero => rfl
        | succ k =>
          rw [List.getD_cons_succ, hbits k (by omega)]
          congr 2
          omega
      · rw [hcount]
        by_cases hroom : n ≤ size - (count + 1)
        · rw [if_pos hroom, if_pos (by omega)]
          omega
        · rw [if_neg hroom, if_neg (by omega)]

include hfix in
/-- A block is written. -/
theorem Printed.block {st : PrintState} (h : Printed B st) (hlt : st.count < B.size)
    (hcount : st.count % 8 = 0) {l : List Bool} (hlen : l.length = min 8 (B.size - st.count))
    (hbits : ∀ k < l.length, l.getD k false = B.bit (st.count + k)) {count' : Nat}
    (hcount' : B.size < st.count + 8 ∧ B.size < count' ∨
      st.count + 8 ≤ B.size ∧ count' = st.count + 8) :
    Printed B { st.putLead with
      text := st.putLead.text ++ (bitChars l ++ [' ']), count := count' } ∧
      st.putLead.count = st.count := by
  have hne : l ≠ [] := by
    apply List.ne_nil_of_length_pos
    omega
  -- what the reader has to do, with or without an offset in front of the bits
  suffices hread : ∃ text bs o lead, st.putLead.text = sizeText B.size ++ (text ++ lead) ∧
      Reads text (make B.size) 0 bs o ∧ bs.size = B.size ∧
      (∀ i < B.size, bs.bit i = (decide (i < st.count) && B.bit i)) ∧
      (lead = [] ∧ o = st.count ∨ lead = hexText st.count ++ [':']) ∧
      st.putLead.range = none ∧ st.putLead.count = st.count by
    obtain ⟨text, bs, o, lead, htext, hreads, hsize, hbs, hlead, hrange, hput⟩ := hread
    obtain ⟨bs', hplain, hcolon, hsize', hbs'⟩ :=
      @reads_block bs _ hcount _ hne (by omega) (by omega) (by omega) (by omega)
    have hitem : Reads (lead ++ (bitChars l ++ [' '])) bs o bs' ((st.count + l.length : Nat) : Int) := by
      rcases hlead with ⟨rfl, rfl⟩ | rfl
      · exact hplain
      · simpa using hcolon o
    refine ⟨⟨⟨text ++ (lead ++ (bitChars l ++ [' '])), bs', _, ?_, hreads.append hitem,
      hsize'.trans hsize, fun i hi => ?_, fun _ hc => ?_⟩, fun first hf => ?_⟩, hput⟩
    · dsimp only
      rw [htext]
      simp
    · dsimp only
      rw [hrange, hbs']
      dsimp only [Option.getD_none]
      by_cases hin : st.count ≤ i ∧ i < st.count + 8
      · have hlt' : i < count' := by omega
        rw [if_pos hin, hbits (i - st.count) (by omega), show st.count + (i - st.count) = i by omega]
        simp [hlt']
      · rw [if_neg hin, hbs i hi]
        by_cases h1 : i < st.count
        · have : i < count' := by omega
          simp [h1, this]
        · have : ¬ i < count' := by omega
          simp [h1, this]
    · dsimp only at hc ⊢
      have : count' = st.count + l.length := by omega
      rw [this]
    · rw [show st.putLead.range = none from hrange] at hf
      cases hf
  cases hl : st.lead with
  | false =>
    obtain ⟨⟨text, bs, o, htext, hreads, hsize, hbs, ho⟩, hrange⟩ := h
    have hput : st.putLead = st := by simp [PrintState.putLead, hl]
    have hnone : st.range = none := by
      cases hr : st.range with
      | none => rfl
      | some first =>
        have := (hrange first hr).2.2.2.2.1
        rw [hl] at this
        cases this
    rw [hput]
    rw [hnone] at hbs
    exact ⟨text, bs, o, [], by rw [htext, List.append_nil], hreads, hsize, hbs, .inl ⟨rfl, ho hl hlt⟩,
      hnone, rfl⟩
  | true =>
    cases hr : st.range with
    | none =>
      obtain ⟨⟨text, bs, o, htext, hreads, hsize, hbs, -⟩, -⟩ := h
      have hput : st.putLead =
          { st with text := st.text ++ (hexText st.count ++ [':']), lead := false } := by
        simp [PrintState.putLead, hl, hr]
      rw [hput]
      rw [hr] at hbs
      exact ⟨text, bs, o, hexText st.count ++ [':'], by dsimp only; rw [htext, List.append_assoc],
        hreads, hsize, hbs, .inr rfl, hr, rfl⟩
    | some first =>
      obtain ⟨hend, hnone, hcount0, -⟩ := h.endRange hfix
      have hput : st.putLead = { st.endRange with lead := false } := by
        simp [PrintState.putLead, hl, hr]
      rw [hl, hr] at hend
      obtain ⟨⟨text, bs, o, htext, hreads, hsize, hbs, ho⟩, -⟩ := hend
      dsimp only at htext hbs ho
      rw [hnone, hcount0] at hbs
      rw [hcount0] at ho
      rw [hput]
      exact ⟨text, bs, o, [], by rw [List.append_nil]; exact htext, hreads, hsize, hbs,
        .inl ⟨rfl, ho rfl hlt⟩, hnone, hcount0⟩

/-! ## The loops -/

/-- The bits of a byte, in its word. -/
theorem bit_of_byte {n b : Nat} (hb : b < 4) {k : Nat} (hk : k < 8) :
    B.bit (32 * n + 8 * b + k) = (B.words.getD n 0).getLsbD (b * 8 + k) := by
  rw [bit, Nat.add_assoc, bitAt_word _ _ (by omega), Nat.mul_comm]

include hfix in
/-- One byte. -/
theorem Printed.byte {st : PrintState} (h : Printed B st) {n b : Nat} (hb : b < 4)
    (hcount : st.count = 32 * n + 8 * b) (hlt : st.count < B.size) :
    Printed B (printByte B.size (B.words.getD n 0) b st) ∧
      ((printByte B.size (B.words.getD n 0) b st).count = st.count + 8 ∨
        B.size < st.count + 8 ∧ B.size < (printByte B.size (B.words.getD n 0) b st).count) := by
  generalize hw : B.words.getD n 0 = w
  have hbit : ∀ i, st.count ≤ i → i < st.count + 8 → B.bit i = w.getLsbD (b * 8 + (i - st.count)) := by
    intro i h1 h2
    have := bit_of_byte (B := B) (n := n) hb (k := i - st.count) (by omega)
    rw [hw, ← hcount, show st.count + (i - st.count) = i by omega] at this
    exact this
  have hand : ∀ i, st.count ≤ i → i < st.count + 8 →
      (w &&& (0xff#32 <<< (b * 8))).getLsbD (b * 8 + (i - st.count)) = B.bit i := by
    intro i h1 h2
    rw [BitVec.getLsbD_and, getLsbD_byteMask _ (by omega), hbit i h1 h2]
    have : b * 8 + (i - st.count) < b * 8 + 8 := by omega
    simp [this]
  unfold printByte charBit
  dsimp only
  by_cases hset : w &&& (0xff#32 <<< (b * 8)) ≠ 0
  · rw [if_pos hset]
    by_cases hfull : w &&& (0xff#32 <<< (b * 8)) = 0xff#32 <<< (b * 8)
    · rw [if_pos hfull]
      refine ⟨h.full hlt (by omega) fun i _ h1 h2 => ?_, .inl rfl⟩
      rw [← hand i h1 h2, hfull, getLsbD_byteMask _ (by omega)]
      have : b * 8 + (i - st.count) < b * 8 + 8 := by omega
      simp [this]
    · rw [if_neg hfull]
      have hputCount : st.putLead.count = st.count := by
        rw [PrintState.putLead]
        split
        · split
          · exact (h.endRange hfix).2.2.1
          · rfl
        · rfl
      rw [hputCount]
      obtain ⟨l, htext, hlen, hbits, hcount'⟩ :=
        @blockBits_spec w (b * 8) B.size 8 _ (le_refl 8) hlt.le
      rw [htext, hcount']
      have hbits' : ∀ k < l.length, l.getD k false = B.bit (st.count + k) := by
        intro k hk
        rw [hbits k hk, hbit (st.count + k) (by omega) (by omega)]
        congr 1
        omega
      by_cases hroom : 8 ≤ B.size - st.count
      · rw [if_pos hroom]
        exact ⟨(h.block hfix hlt (by omega) hlen hbits' (.inr ⟨by omega, rfl⟩)).1, .inl rfl⟩
      · rw [if_neg hroom]
        exact ⟨(h.block hfix hlt (by omega) hlen hbits' (.inl ⟨by omega, by omega⟩)).1,
          .inr ⟨by omega, Nat.lt_succ_self _⟩⟩
  · rw [if_neg hset]
    refine ⟨h.endRange_skip hfix 8 fun i _ h1 h2 => ?_, .inl rfl⟩
    rw [← hand i h1 h2, not_not.mp hset]
    simp

include hfix in
/-- The bytes of word `n`, `m` of them to come. -/
theorem Printed.bytes {n m : Nat} (hm : m ≤ 4) {st : PrintState} (h : Printed B st)
    (hcount : st.count = 32 * n + 8 * (4 - m) ∨ B.size ≤ st.count ∧ B.size < 32 * (n + 1)) :
    Printed B (printBytes B.size (B.words.getD n 0) m st) ∧
      ((printBytes B.size (B.words.getD n 0) m st).count = 32 * (n + 1) ∨
        B.size ≤ (printBytes B.size (B.words.getD n 0) m st).count ∧ B.size < 32 * (n + 1)) := by
  induction m generalizing st with
  | zero =>
    refine ⟨h, ?_⟩
    rw [printBytes]
    omega
  | succ m ih =>
    rw [printBytes]
    by_cases hlt : st.count < B.size
    · rw [if_pos hlt]
      obtain ⟨hbyte, hnext⟩ := h.byte hfix (n := n) (b := wordBytes - (m + 1))
        (by simp only [wordBytes]; omega) (by simp only [wordBytes]; omega) hlt
      exact ih (by omega) hbyte (by omega)
    · rw [if_neg hlt]
      exact ⟨h, by omega⟩

include hfix in
/-- Word `n`. -/
theorem Printed.word {n : Nat} {st : PrintState} (h : Printed B st) (hcount : st.count = 32 * n) :
    Printed B (printWord B.size (B.words.getD n 0) st) ∧
      ((printWord B.size (B.words.getD n 0) st).count = 32 * (n + 1) ∨
        B.size ≤ (printWord B.size (B.words.getD n 0) st).count ∧ B.size < 32 * (n + 1)) := by
  rw [printWord]
  by_cases hset : B.words.getD n 0 ≠ 0
  · rw [if_pos hset]
    exact h.bytes hfix (le_refl 4) (.inl (by omega))
  · have hbits : ∀ i < B.size, st.count ≤ i → i < st.count + 32 → B.bit i = false := by
      intro i _ h1 h2
      have := bitAt_word B.words n (j := i - 32 * n) (by omega)
      rw [show 32 * n + (i - 32 * n) = i by omega, not_not.mp hset] at this
      rw [bit, this]
      simp
    rw [if_neg hset, bitsetBitsPerWord]
    exact ⟨h.endRange_skip hfix 32 hbits, .inl (by dsimp only; omega)⟩

include hfix in
/-- The words below `n`. -/
theorem Printed.words {st0 : PrintState} (h0 : Printed B st0) (hstart : st0.count = 0)
    (hne : B.size ≠ 0) {n : Nat} (hn : n ≤ B.size / 32 + 1) :
    ∃ st, printWords B n st0 = .ok st ∧ Printed B st ∧
      (st.count = 32 * n ∨ B.size ≤ st.count ∧ B.size < 32 * n) := by
  induction n with
  | zero => exact ⟨st0, rfl, h0, .inl (by omega)⟩
  | succ n ih =>
    obtain ⟨st, hrun, hst, hcount⟩ := ih (by omega)
    have hlen := length_words hne
    obtain ⟨hword, hnext⟩ := hst.word hfix (n := n) (by omega)
    refine ⟨_, ?_, hword, hnext⟩
    have hread : B.word n = .ok (B.words.getD n 0) :=
      word_eq (by rw [hlen, bitsetBitsPerWord]; omega)
    rw [printWords] at hrun ⊢
    rw [List.range_succ, List.foldlM_append, hrun, ok_bind, List.foldlM_cons, hread]
    rfl

/-! ## What is printed first -/

theorem sizeText_append (size : Nat) (t : Text) :
    sizeText size ++ t = '#' :: 'B' :: '{' :: ' ' :: (digitText (digitsOf size) ++ ' ' :: t) := by
  simp [sizeText]

theorem prefix_endRange {t : Text} {st : PrintState} (h : t <+: st.text) : t <+: st.endRange.text := by
  rw [PrintState.endRange]
  split
  · exact h
  · exact h.trans (List.prefix_append _ _)

theorem prefix_putLead {t : Text} {st : PrintState} (h : t <+: st.text) : t <+: st.putLead.text := by
  rw [PrintState.putLead]
  split
  · split
    · exact prefix_endRange h
    · exact h.trans (List.prefix_append _ _)
  · exact h

theorem prefix_printByte {t : Text} (size : Nat) (w : BitVec 32) (b : Nat) {st : PrintState}
    (h : t <+: st.text) : t <+: (printByte size w b st).text := by
  unfold printByte
  dsimp only
  split
  · split
    · exact h
    · exact (prefix_putLead h).trans (List.prefix_append _ _)
  · exact prefix_endRange h

theorem prefix_printBytes {t : Text} (size : Nat) (w : BitVec 32) (n : Nat) {st : PrintState}
    (h : t <+: st.text) : t <+: (printBytes size w n st).text := by
  induction n generalizing st with
  | zero => exact h
  | succ n ih =>
    rw [printBytes]
    split
    · exact ih (prefix_printByte size w _ h)
    · exact h

theorem prefix_printWord {t : Text} (size : Nat) (w : BitVec 32) {st : PrintState}
    (h : t <+: st.text) : t <+: (printWord size w st).text := by
  rw [printWord]
  split
  · exact prefix_printBytes size w _ h
  · exact prefix_endRange h

theorem prefix_printWords {t : Text} {n : Nat} {st st' : PrintState} (h : t <+: st.text)
    (hrun : printWords B n st = .ok st') : t <+: st'.text := by
  rw [printWords] at hrun
  induction n generalizing st' with
  | zero =>
    cases hrun
    exact h
  | succ n ih =>
    rw [List.range_succ, List.foldlM_append] at hrun
    cases hst : List.foldlM (fun st i => do pure (printWord B.size (← B.word i) st)) st
        (List.range n) with
    | error e =>
      rw [hst] at hrun
      cases hrun
    | ok st1 =>
      rw [hst, ok_bind, List.foldlM_cons] at hrun
      cases hw : B.word n with
      | error e =>
        rw [hw] at hrun
        cases hrun
      | ok w =>
        rw [hw] at hrun
        cases hrun
        exact prefix_printWord B.size w (ih hst)

/-- Whatever is printed starts with the size. -/
theorem prefix_asCString {s : Text} (h : asCString B = .ok s) : ∃ t, s = sizeText B.size ++ t := by
  rw [asCString] at h
  cases hrun : printWords B (B.size / bitsetBitsPerWord + 1) ⟨sizeText B.size, 0, false, none⟩ with
  | error e =>
    rw [hrun] at h
    cases h
  | ok st =>
    rw [hrun] at h
    cases h
    obtain ⟨t, ht⟩ := prefix_endRange (prefix_printWords (List.prefix_refl _) hrun)
    exact ⟨t ++ ['}'], by rw [← ht, List.append_assoc]⟩

/-- There is no first word to print in a bitset of no bits. -/
theorem asCString_of_size_zero (h : B.size = 0) : asCString B = .error .undefined := by
  have hwords : B.words = [] := by
    apply List.eq_nil_of_length_eq_zero
    rw [B.allocated, if_pos h]
  have hword : B.word 0 = .error .undefined := by rw [word, hwords]; rfl
  rw [asCString, printWords, h]
  show (List.foldlM _ _ [0] >>= _) = _
  rw [List.foldlM_cons, hword]
  rfl

/-! ## The size is read -/

theorem plain_digitText (n : Nat) : Plain (digitText (digitsOf n)) := by
  intro c hc
  have hno : ∀ c', c'.isDigit = false → c ≠ c' := by
    rintro c' hc' rfl
    exact not_mem_digitText (allDigits_digitsOf n) hc' hc
  exact ⟨hno _ rfl, hno _ rfl, hno _ rfl, hno _ rfl, hno _ rfl, hno _ rfl, hno _ rfl⟩

theorem digitText_length_le {n : Nat} (h : (n : Int) ≤ fixnumMax) :
    (digitText (digitsOf n)).length ≤ 19 := by
  rw [digitText_length, digitsOf_length]
  apply max_le (by decide)
  apply (Nat.digits_length_le_iff (by decide) n).mpr
  simp only [fixnumMax] at h
  omega

/-- A word that is too long is refused, and any other read up to the blank. -/
theorem readWord_plain_blank {s : Text} (hs : Plain s) (t buf : Text) :
    (∃ e, readWord (s ++ ' ' :: t) buf none none = .error e) ∨
      ∃ rest, readWord (s ++ ' ' :: t) buf none none = .ok ⟨buf ++ s, none, none, false, rest⟩ := by
  induction s generalizing buf with
  | nil =>
    unfold readWord
    by_cases hlong : buf.length > wordMaxLen
    · rw [if_pos hlong]
      exact .inl ⟨_, rfl⟩
    · rw [if_neg hlong]
      exact .inr ⟨readWhitespace t, by simp⟩
  | cons c s ih =>
    obtain ⟨⟨h1, h2, h3, h4, h5, h6, h7⟩, hs⟩ := List.forall_mem_cons.mp hs
    have hstep := ih hs (buf ++ [c])
    rw [List.cons_append, show buf ++ c :: s = buf ++ [c] ++ s by simp]
    unfold readWord
    by_cases hlong : buf.length > wordMaxLen
    · rw [if_pos hlong]
      exact .inl ⟨_, rfl⟩
    · rw [if_neg hlong]
      simpa [h1, h2, h3, h4, h5, h6, h7] using hstep

theorem digitText_digitsOf_ne_nil (n : Nat) : digitText (digitsOf n) ≠ [] :=
  digitText_ne_nil (digitsOf_ne_nil n)

theorem readWhitespace_blank {s : Text} (hs : Solid s) : readWhitespace (' ' :: s) = s := by
  calc readWhitespace (' ' :: s) = readWhitespace s := List.dropWhile_cons_of_pos (by decide)
    _ = s := hs

/-- The loop starts at the digits of the size. -/
theorem readText_sizeText (n : Nat) (t : Text) :
    readText (sizeText n ++ t) =
      (whileLoop .diverges (fun st => !st.done) readStep
        ((digitText (digitsOf n)).length + t.length + 3)
        ⟨digitText (digitsOf n) ++ ' ' :: t, none, 0, false⟩).map ReadState.bs := by
  have hblank := readWhitespace_blank
    (solid_plain (plain_digitText n) (digitText_digitsOf_ne_nil n) (' ' :: t))
  have hfuel : (' ' :: (digitText (digitsOf n) ++ ' ' :: t)).length + 1 =
      (digitText (digitsOf n)).length + t.length + 3 := by
    simp only [List.length_cons, List.length_append]
    omega
  rw [sizeText_append]
  show readBitset ('{' :: ' ' :: _) = _
  rw [readBitset, if_pos rfl, hblank, hfuel]
  cases whileLoop _ _ _ _ _ <;> rfl

/-- A size that is not a fixnum is refused, whatever follows. -/
theorem readText_of_big {n : Nat} (h : ¬ (n : Int) ≤ fixnumMax) (t : Text) :
    ∃ e, readText (sizeText n ++ t) = .error e := by
  obtain ⟨c, ds, hds⟩ := List.exists_cons_of_ne_nil (digitText_digitsOf_ne_nil n)
  have hplain := plain_digitText n
  rw [hds] at hplain
  have hbrace := (hplain c List.mem_cons_self).2.2.2.2.1
  have hstep : ∃ e, readStep ⟨digitText (digitsOf n) ++ ' ' :: t, none, 0, false⟩ = .error e := by
    rw [readStep, hds, List.cons_append]
    dsimp only
    rw [if_neg hbrace]
    rcases readWord_plain_blank (fun c hc => hplain c (List.mem_cons_of_mem _ hc)) t [c] with
      ⟨e, he⟩ | ⟨rest, hok⟩
    · rw [he]
      exact ⟨e, rfl⟩
    · have hsize := readSize_digits n
      rw [if_neg h, hds] at hsize
      rw [hok, ok_bind, storeWord]
      dsimp only
      rw [List.cons_append, List.nil_append, hsize]
      exact ⟨_, rfl⟩
  obtain ⟨e, he⟩ := hstep
  refine ⟨e, ?_⟩
  rw [readText_sizeText, whileLoop_of_raise _ rfl he]
  rfl

/-- The size, the items and the closing brace. -/
theorem readText_items {n : Nat} (hn : (n : Int) ≤ fixnumMax) {t : Text} {bs : Bitset} {o : Int}
    (h : Reads t (make n) 0 bs o) : readText (sizeText n ++ (t ++ ['}'])) = .ok (some bs) := by
  have hbrace : Solid ['}'] := rfl
  obtain ⟨hsolid, k, hk, hrun⟩ := h
  have hlen := digitText_length_le hn
  have hfirst : readStep ⟨digitText (digitsOf n) ++ ' ' :: (t ++ ['}']), none, 0, false⟩ =
      .ok ⟨t ++ ['}'], some (make n), 0, false⟩ := by
    rw [readStep_plain (plain_digitText n) (digitText_digitsOf_ne_nil n)
        (by simp only [wordMaxLen]; omega),
      readWord_blank (hsolid _ hbrace) none none (by simp only [wordMaxLen]; omega), ok_bind,
      storeWord]
    dsimp only
    rw [readSize_digits, if_pos hn]
    rfl
  obtain ⟨fuel, hfuel⟩ : ∃ fuel, (digitText (digitsOf n)).length + (t ++ ['}']).length + 3 =
      fuel + 1 + k + 1 := by
    rw [List.length_append, List.length_singleton]
    exact ⟨(digitText (digitsOf n)).length + t.length + 2 - k, by omega⟩
  have hlast : readStep ⟨['}'], some bs, o, false⟩ = .ok ⟨[], some bs, o, true⟩ := rfl
  rw [readText_sizeText, hfuel, whileLoop_of_true _ rfl hfirst, hrun _ hbrace,
    whileLoop_of_true _ rfl hlast, whileLoop_of_false _ rfl]
  rfl

/-! ## The round trip -/

/-- The text printed for `b` is read as a bitset that is `equal-bitset?` to `b`. -/
def RoundTrips (b : Bitset) : Prop :=
  ∃ s r, asCString b = .ok s ∧ readText s = .ok (some r) ∧ equalBitsetP [b, r] = true

theorem make_bit (n i : Nat) : (make n).bit i = false := by
  rw [bit, bitAt, make]
  have : (List.replicate (if n = 0 then 0 else n / bitsetBitsPerWord + 1) (0 : BitVec 32)).getD
      (i / 32) 0 = 0 := by
    rw [List.getD_eq_getElem?_getD, List.getElem?_getD_replicate_default_eq]
  rw [this]
  simp

include hfix in
theorem roundTrips_of_fixnum (hne : B.size ≠ 0) : RoundTrips B := by
  have hstart : Printed B ⟨sizeText B.size, 0, false, none⟩ := by
    refine ⟨⟨[], make B.size, 0, (List.append_nil _).symm, Reads.nil _ _, rfl, fun i _ => ?_,
      fun _ _ => rfl⟩, fun first hf => by cases hf⟩
    rw [make_bit]
    simp
  obtain ⟨st, hrun, hst, hcount⟩ := hstart.words hfix rfl hne (le_refl (B.size / 32 + 1))
  obtain ⟨⟨⟨text, bs, o, htext, hreads, hsize, hbits, -⟩, -⟩, hnone, hend, -⟩ := hst.endRange hfix
  dsimp only at htext hbits
  rw [hnone, hend] at hbits
  dsimp only [Option.getD_none] at hbits
  refine ⟨st.endRange.text ++ ['}'], bs, ?_, ?_, ?_⟩
  · rw [asCString, bitsetBitsPerWord, hrun]
    rfl
  · rw [htext, List.append_assoc]
    exact readText_items hfix hreads
  · rw [equalBitsetP_iff]
    intro cs hcs
    rw [List.mem_singleton] at hcs
    subst hcs
    refine ⟨hsize.symm, fun i hi => ?_⟩
    have hlt : i < st.count := by omega
    rw [hbits i hi]
    simp [hlt]

/-- **Print and read**: exactly the bitsets whose size is a positive fixnum are read
back. -/
theorem print_read_iff (b : Bitset) :
    RoundTrips b ↔ b.size ≠ 0 ∧ (b.size : Int) ≤ fixnumMax := by
  constructor
  · rintro ⟨s, r, hprint, hread, -⟩
    refine ⟨fun hzero => ?_, ?_⟩
    · rw [asCString_of_size_zero hzero] at hprint
      cases hprint
    · by_contra hbig
      obtain ⟨t, rfl⟩ := prefix_asCString hprint
      obtain ⟨e, he⟩ := readText_of_big hbig t
      rw [he] at hread
      cases hread
  · rintro ⟨hne, hfix⟩
    exact roundTrips_of_fixnum hfix hne

/-- A bitset of no bits, which `make-bitset` gives for the size 0, has no printed form. -/
theorem print_read_of_no_bits :
    asCString (make 0) = .error .undefined ∧ ¬ RoundTrips (make 0) := by
  have hprint : asCString (make 0) = .error .undefined := rfl
  refine ⟨hprint, ?_⟩
  rintro ⟨s, r, hok, -, -⟩
  rw [hprint] at hok
  cases hok

/-- The third byte is full, and the last one has three bits only. -/
example : (set (make 43) 3 >>= fun b => set b 42).bind asCString =
    .ok "#B{ 43 00010000 28:001 }".toList := by
  decide

end Bitset

end Idio
