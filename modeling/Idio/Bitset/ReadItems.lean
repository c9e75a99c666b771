/-
  Bitset/ReadItems.lean --- what the reader makes of the items that are printed.

  `Reads text bs o bs' o'` says that reading `text` takes the reader from the bitset
  `bs` and the offset `o` to `bs'` and `o'`, whatever follows.  A range sets the bits
  of its bytes (`reads_range`) and a block those of its byte (`reads_block`).  A size
  is read if it is a fixnum, and refused if it is not (`readSize_digits`).
-/
import Idio.Bitset.Read

set_option autoImplicit false

namespace Idio

open Bignum HexString DigitString WhileLoop WordBits

/-! ## Numbers -/

theorem hexChar_readable {d : Nat} (hd : d < 16) :
    isSeparator (hexChar d) = false ∧ digitIndex (hexChar d) = d := by
  revert d
  decide

/-- Digits in front of the end or of a separator are read as the number that they write. -/
theorem radixDigits_spec {basec : Char} {radix : Nat} (hradix : radix ≤ 36) {s rest : Text}
    (hs : ∀ c ∈ s, isSeparator c = false ∧ digitIndex c < radix)
    (hrest : ∀ c, rest.head? = some c → isSeparator c = true) {bn : Bignum} {x : Nat}
    (hbn : IsInt bn x) (k : Nat) :
    ∃ bn', radixDigits basec radix (s ++ rest) bn k = .ok (bn', k + s.length) ∧
      IsInt bn' (s.foldl (fun acc c => acc * radix + digitIndex c) x : Nat) := by
  induction s generalizing bn x k with
  | nil =>
    refine ⟨bn, ?_, hbn⟩
    cases rest with
    | nil => rfl
    | cons c rest => rw [List.nil_append, radixDigits, if_pos (hrest c rfl)]; rfl
  | cons c s ih =>
    obtain ⟨⟨hsep, hdigit⟩, hs⟩ := List.forall_mem_cons.mp hs
    obtain ⟨bn1, hmul, h1⟩ := multiply_isInt hbn (integerIntmaxT_isInt (i := radix)
      (by simp only [intmaxMin]; omega) (by simp only [intmaxMax]; omega))
    obtain ⟨bn2, hadd, h2⟩ := add_isInt h1 (integerIntmaxT_isInt (i := digitIndex c)
      (by simp only [intmaxMin]; omega) (by simp only [intmaxMax]; omega))
    have hnext : IsInt bn2 (x * radix + digitIndex c : Nat) := by exact_mod_cast h2
    obtain ⟨bn', hrun, hint⟩ := ih hs hnext (k + 1)
    refine ⟨bn', ?_, hint⟩
    rw [List.cons_append, radixDigits, hsep, if_neg Bool.false_ne_true, if_neg (Nat.not_le.mpr hdigit)]
    show (multiply bn (integerIntmaxT radix) >>= _) = _
    rw [hmul]
    show (add bn1 (integerIntmaxT (digitIndex c)) >>= _) = _
    rw [hadd]
    show radixDigits basec radix (s ++ rest) bn2 (k + 1) = _
    rw [hrun, List.length_cons]
    congr 2
    omega

theorem radixDigits_hex {ds : List Nat} (h : ∀ d ∈ ds, d < 16) {bn : Bignum} {x : Nat}
    (hbn : IsInt bn x) (k : Nat) :
    ∃ bn', radixDigits 'x' 16 (ds.map hexChar) bn k = .ok (bn', k + ds.length) ∧
      IsInt bn' (ds.foldl (fun acc d => acc * 16 + d) x : Nat) := by
  have hvalue : ∀ x : Nat, (ds.map hexChar).foldl (fun acc c => acc * 16 + digitIndex c) x =
      ds.foldl (fun acc d => acc * 16 + d) x := by
    clear hbn
    induction ds with
    | nil => exact fun x => rfl
    | cons d ds ih =>
      intro x
      obtain ⟨hd, hds⟩ := List.forall_mem_cons.mp h
      rw [List.map_cons, List.foldl_cons, (hexChar_readable hd).2, ih hds, List.foldl_cons]
  have hdigits : ∀ c ∈ ds.map hexChar, isSeparator c = false ∧ digitIndex c < 16 := by
    intro c hc
    obtain ⟨d, hd, rfl⟩ := List.mem_map.mp hc
    rw [(hexChar_readable (h d hd)).1, (hexChar_readable (h d hd)).2]
    exact ⟨rfl, h d hd⟩
  obtain ⟨bn', hrun, hint⟩ := @radixDigits_spec 'x' 16 (by decide) (ds.map hexChar) [] hdigits
    (by simp) bn x hbn k
  rw [List.append_nil, List.length_map] at hrun
  rw [hvalue] at hint
  exact ⟨bn', hrun, hint⟩

theorem hexText_length_pos (n : Nat) : 0 < (hexText n).length := by
  rw [hexText, List.length_map]
  exact List.length_pos_of_ne_nil (hexDigits_ne_nil n)

theorem hexText_length_le {n : Nat} (h : (n : Int) ≤ fixnumMax) : (hexText n).length ≤ 16 := by
  rw [hexText, List.length_map]
  apply hexDigits_length_le (by decide)
  simp only [fixnumMax] at h
  omega

theorem radixSign_of_digit {c : Char} {s : Text} (hminus : c ≠ '-') (hplus : c ≠ '+') :
    radixSign (c :: s) = (false, 0, c :: s) := by
  unfold radixSign
  split
  · rename_i heq
    exact absurd (List.cons.inj heq).1 hminus
  · rename_i heq
    exact absurd (List.cons.inj heq).1 hplus
  · rfl

theorem radixSign_hexText (n : Nat) : radixSign (hexText n) = (false, 0, hexText n) := by
  obtain ⟨d, ds, hds⟩ := List.exists_cons_of_ne_nil (hexDigits_ne_nil n)
  have hd : d < 16 := hexDigits_lt n d (by rw [hds]; exact List.mem_cons_self)
  obtain ⟨-, -, -, -, -, -, hminus, hplus⟩ := hexChar_ne hd
  rw [hexText, hds, List.map_cons]
  exact radixSign_of_digit hminus hplus

/-- An offset in hexadecimal is read as the fixnum it is. -/
theorem readBignumRadix_hexText {n : Nat} (h : (n : Int) ≤ fixnumMax) :
    readBignumRadix 'x' 16 (hexText n) = .ok (.fixnum n, (hexText n).length) := by
  obtain ⟨bn, hrun, hint⟩ := radixDigits_hex (hexDigits_lt n)
    (integerIntmaxT_isInt (i := (0 : Nat)) (by decide) (by decide)) 0
  have hlen : (hexDigits n).length ≠ 0 := by
    have := hexText_length_pos n
    rw [hexText, List.length_map] at this
    omega
  have hrange : InFixnumRange (n : Int) := by
    refine ⟨?_, h⟩
    simp only [fixnumMin]
    omega
  rw [foldl_hexDigits] at hint
  rw [readBignumRadix, radixSign_hexText]
  show (radixDigits 'x' 16 ((hexDigits n).map hexChar) (integerIntmaxT (0 : Nat)) 0 >>= _) = _
  rw [hrun]
  simp only [Nat.zero_add]
  show (if (hexDigits n).length = 0 then _ else _) = _
  rw [if_neg hlen, toFixnum_isInt (by exact hint), if_pos hrange, hexText, List.length_map]

/-- Every natural number has a normal bignum. -/
theorem exists_normalInteger (n : Nat) : ∃ a : NormalInteger, a.toInt = n := by
  suffices h : ∃ bn, IsInt bn (n : Int) by
    obtain ⟨bn, hbn⟩ := h
    exact ⟨hbn.toNormal, hbn.toInt_eq⟩
  induction n with
  | zero => exact ⟨_, integerIntmaxT_isInt (i := 0) (by decide) (by decide)⟩
  | succ n ih =>
    obtain ⟨bn, hbn⟩ := ih
    obtain ⟨r, -, hr⟩ := add_isInt hbn (integerIntmaxT_isInt (i := 1) (by decide) (by decide))
    exact ⟨r, by exact_mod_cast hr⟩

namespace Bitset

/-- A size that is a fixnum is read, and any other is refused. -/
theorem readSize_digits (n : Nat) :
    readSize (digitText (digitsOf n)) = if (n : Int) ≤ fixnumMax then .ok n else badSize := by
  obtain ⟨a, ha⟩ := exists_normalInteger n
  have hread := (readNumberC_integer a).2
  rw [asString_nat ha, ha] at hread
  have hrange : InFixnumRange (n : Int) ↔ (n : Int) ≤ fixnumMax := by
    refine and_iff_right ?_
    simp only [fixnumMin]
    omega
  rw [readSize, hread]
  by_cases h : (n : Int) ≤ fixnumMax
  · rw [if_pos (hrange.mpr h), if_pos h]
    have hneg : ¬ (n : Int) < 0 := by omega
    show (if (n : Int) < 0 then badSize else pure (n : Int).toNat) = _
    rw [if_neg hneg]
    rfl
  · have hint : IsInt (integer a.bn.sig) n := ⟨rfl, a.normal, by rw [← ha]; rfl⟩
    have hneg : negativeP (integer a.bn.sig) = false := by
      rw [hint.negativeP_eq]
      simp
    have hmag : HasMagnitude (integer a.bn.sig) n := hint.hasMagnitude (by omega)
    have hbig : 18 < Decimal.decimalDigits (n : Int) := by
      rw [Decimal.lt_decimalDigits_iff (by omega)]
      simp only [fixnumMax] at h
      omega
    have hnone : realToInteger (integer a.bn.sig) = .ok none := by
      have hexp : (integer a.bn.sig).exp = 0 := rfl
      rw [realToInteger, if_pos (by rw [hexp])]
      rcases scaleSignificand_spec (f := 0) (k := sigMaxDigits) hmag (by decide)
        (by rw [hexp]) (by rw [hexp]; decide) with ⟨-, hs⟩ | ⟨hle, -⟩
      · show (scaleSignificand (integer a.bn.sig) 0 sigMaxDigits >>= _) = _
        rw [hs]
        rfl
      · exfalso
        rw [hexp, sigMaxDigits] at hle
        omega
    rw [if_neg (fun hr => h (hrange.mp hr)), if_neg h]
    show (if negativeP (integer a.bn.sig) then badSize else _) = _
    rw [hneg, if_neg Bool.false_ne_true, hnone]
    rfl

/-! ## Words of the text -/

/-- Characters that a word may have and that mean nothing to `readWord`. -/
def Plain (s : Text) : Prop :=
  ∀ c ∈ s, c ≠ ' ' ∧ c ≠ '\t' ∧ c ≠ '\n' ∧ c ≠ '\r' ∧ c ≠ '}' ∧ c ≠ ':' ∧ c ≠ '-'

theorem plain_hexText (n : Nat) : Plain (hexText n) := by
  intro c hc
  obtain ⟨d, hd, rfl⟩ := List.mem_map.mp hc
  obtain ⟨h1, h2, h3, h4, h5, h6, h7, -⟩ := hexChar_ne (hexDigits_lt n d hd)
  exact ⟨h1, h2, h3, h4, h5, h6, h7⟩

theorem readWord_plain {s : Text} (hs : Plain s) (t buf : Text) (colon hyphen : Option Nat)
    (hlen : (buf ++ s).length ≤ wordMaxLen) :
    readWord (s ++ t) buf colon hyphen = readWord t (buf ++ s) colon hyphen := by
  induction s generalizing buf with
  | nil => rw [List.nil_append, List.append_nil]
  | cons c s ih =>
    obtain ⟨⟨h1, h2, h3, h4, h5, h6, h7⟩, hs⟩ := List.forall_mem_cons.mp hs
    have hbuf : ¬ buf.length > wordMaxLen := by
      rw [List.length_append] at hlen
      omega
    have happ : buf ++ c :: s = (buf ++ [c]) ++ s := by simp
    rw [happ] at hlen ⊢
    rw [← ih hs (buf ++ [c]) hlen, List.cons_append]
    conv_lhs => unfold readWord
    simp [hbuf, h1, h2, h3, h4, h5, h6, h7]

/-- Text that does not start with a blank or a tab. -/
def Solid (s : Text) : Prop := readWhitespace s = s

theorem readWord_blank {rest : Text} (hrest : Solid rest) {buf : Text} (colon hyphen : Option Nat)
    (hlen : buf.length ≤ wordMaxLen) :
    readWord (' ' :: rest) buf colon hyphen = .ok ⟨buf, colon, hyphen, false, rest⟩ := by
  have hbuf : ¬ buf.length > wordMaxLen := by omega
  unfold readWord
  rw [if_neg hbuf]
  simp only [true_or, if_true]
  rw [hrest]

theorem readWord_mark (c : Char) (hc : c = ':' ∨ c = '-') {t buf : Text} (colon hyphen : Option Nat)
    (hlen : buf.length ≤ wordMaxLen) :
    readWord (c :: t) buf colon hyphen =
      readWord t (buf ++ [c]) (if c = ':' then some buf.length else colon)
        (if c = '-' then some buf.length else hyphen) := by
  have hbuf : ¬ buf.length > wordMaxLen := by omega
  conv_lhs => unfold readWord
  rw [if_neg hbuf]
  rcases hc with rfl | rfl <;> rfl

/-! ## Ranges -/

theorem getLsbD_byteMask (b : Nat) {j : Nat} (hj : j < 32) :
    (0xff#32 <<< b).getLsbD j = decide (b ≤ j ∧ j < b + 8) := by
  have hff : ∀ k < 32, (0xff#32).getLsbD k = decide (k < 8) := by decide
  rw [BitVec.getLsbD_shiftLeft]
  by_cases hlt : j < b
  · have : ¬ (b ≤ j ∧ j < b + 8) := by omega
    simp [hlt, this]
  · rw [hff (j - b) (by omega)]
    have hiff : (j - b < 8) = (b ≤ j ∧ j < b + 8) := by
      apply propext
      omega
    simp [hlt, hj, hiff]

/-- The bytes of a word that are in a range: `m` of them. -/
theorem rangeBytes_spec {last : Int} {n : Nat} (hn : n ≤ 4) {br : BitVec 32} {offset : Int} :
    ∃ m ≤ n, (rangeBytes last n br offset).2 = offset + 8 * m ∧
      (m = n ∨ last < offset + 8 * m) ∧ (∀ k < m, offset + 8 * k ≤ last) ∧
      ∀ j < 32, (rangeBytes last n br offset).1.getLsbD j =
        (br.getLsbD j || decide ((4 - n) * 8 ≤ j ∧ j < (4 - n + m) * 8)) := by
  induction n generalizing br offset with
  | zero =>
    refine ⟨0, le_refl 0, by simp [rangeBytes], .inl rfl, by simp, fun j hj => ?_⟩
    have : ¬ ((4 - 0) * 8 ≤ j ∧ j < (4 - 0 + 0) * 8) := by omega
    simp [rangeBytes, this]
  | succ n ih =>
    rw [rangeBytes]
    split
    · rename_i hle
      obtain ⟨m, hm, hoff, hend, hall, hbits⟩ := @ih (by omega)
        (br ||| (0xff#32 <<< ((wordBytes - (n + 1)) * charBit))) (offset + charBit)
      simp only [charBit] at *
      refine ⟨m + 1, by omega, by rw [hoff]; push_cast; ring, by omega, ?_, ?_⟩
      · intro k hk
        cases k with
        | zero => simpa using hle
        | succ k =>
          have := hall k (by omega)
          push_cast at this ⊢
          omega
      · intro j hj
        rw [hbits j hj, BitVec.getLsbD_or, getLsbD_byteMask _ hj, Bool.or_assoc]
        congr 1
        rw [← Bool.decide_or, decide_eq_decide]
        simp only [wordBytes]
        omega
    · rename_i hgt
      exact ⟨0, by omega, by simp, .inr (by simpa using hgt), by simp, fun j hj => by simp⟩

theorem sizeT_natCast {n : Nat} (h : (n : Int) ≤ fixnumMax) : sizeT n = n := by
  simp only [fixnumMax] at h
  rw [sizeT, Int.emod_eq_of_lt (by omega) (by omega), Int.toNat_natCast]

/-- One round of the loop over a range: at least one byte, and not beyond the last. -/
theorem rangeStep_spec {bs : Bitset} {o last : Nat} (ho : o % 8 = 0) (hle : o ≤ last)
    (hlast : last < bs.size) (hfix : (bs.size : Int) ≤ fixnumMax) :
    ∃ bs' o', rangeStep last (bs, o) = .ok (bs', (o' : Nat)) ∧ o < o' ∧ o' % 8 = 0 ∧
      o' < last + 9 ∧ bs'.size = bs.size ∧
      ∀ i, bs'.bit i = if o ≤ i ∧ i < o' then true else bs.bit i := by
  have hn : o / 32 < bs.words.length := div_lt_length (by omega)
  have hdiv : sizeT ((o : Int).tdiv bitsetBitsPerWord) = o / 32 := by
    rw [bitsetBitsPerWord, show ((o : Int).tdiv (32 : Nat)) = ((o / 32 : Nat) : Int) from rfl]
    apply sizeT_natCast
    simp only [fixnumMax] at *
    omega
  have hb : ((o : Int).tmod bitsetBitsPerWord).tdiv charBit = ((o % 32 / 8 : Nat) : Int) := rfl
  rw [rangeStep]
  dsimp only
  rw [hdiv, hb]
  by_cases hfull : ((o % 32 / 8 : Nat) : Int) = 0 ∧ (o : Int) + bitsetBitsPerWord < last
  · obtain ⟨bs', hset, hsize, hwords⟩ := setWord_eq hn (BitVec.allOnes 32)
    have hfull' := hfull
    simp only [bitsetBitsPerWord] at hfull'
    refine ⟨bs', o + 32, ?_, by omega, by omega, by omega, hsize, fun i => ?_⟩
    · rw [if_pos hfull, hset]
      rfl
    · rw [bit, hwords, bitAt_setWord hn, BitVec.getLsbD_allOnes, bit]
      by_cases hi : i / 32 = o / 32
      · rw [if_pos hi, if_pos (by omega)]
        simp [Nat.mod_lt i (show 0 < 32 by decide)]
      · rw [if_neg hi, if_neg (by omega)]
  · obtain ⟨m, hm, hoff, hend, hall, hbits⟩ := @rangeBytes_spec last
      (4 - o % 32 / 8) (by omega) 0 o
    obtain ⟨bs', hset, hsize, hwords⟩ := setWord_eq hn
      (bs.words.getD (o / 32) 0 ||| (rangeBytes last (4 - o % 32 / 8) 0 o).1)
    have hpos : 0 < m := by omega
    have hlastByte := hall (m - 1) (by omega)
    refine ⟨bs', o + 8 * m, ?_, by omega, by omega, by omega, hsize, fun i => ?_⟩
    · rw [if_neg hfull, word_eq hn]
      show (bs.setWord (o / 32) (_ ||| (rangeBytes last (4 - o % 32 / 8) 0 o).1) >>= fun r =>
        pure (r, (rangeBytes last (4 - o % 32 / 8) 0 o).2)) = _
      rw [hset, hoff]
      rfl
    · rw [bit, hwords, bitAt_setWord hn]
      by_cases hi : i / 32 = o / 32
      · rw [if_pos hi, BitVec.getLsbD_or, hbits _ (Nat.mod_lt i (by decide)), bit, bitAt, hi]
        by_cases hin : o ≤ i ∧ i < o + 8 * m
        · rw [if_pos hin]
          have : (4 - (4 - o % 32 / 8)) * 8 ≤ i % 32 ∧ i % 32 < (4 - (4 - o % 32 / 8) + m) * 8 := by
            omega
          simp [this]
        · rw [if_neg hin]
          have : ¬ ((4 - (4 - o % 32 / 8)) * 8 ≤ i % 32 ∧
              i % 32 < (4 - (4 - o % 32 / 8) + m) * 8) := by
            omega
          simp [this]
      · rw [if_neg hi, if_neg (by omega), bit]

theorem checkOffset_ok {what : String} {bs : Bitset} {o : Nat} (ho : o % 8 = 0) (hle : o ≤ bs.size)
    (hfix : (bs.size : Int) ≤ fixnumMax) : checkOffset what bs o = .ok () := by
  have hs : bs.ssize = bs.size := by
    simp only [fixnumMax] at hfix
    rw [ssize, wrap64_of_mem (by simp only [intmaxMin]; omega) (by simp only [intmaxMax]; omega)]
  have hmod : ((o : Int).tmod charBit) = ((o % 8 : Nat) : Int) := rfl
  rw [checkOffset, hs, if_neg (by omega), hmod, ho, if_neg (by simp)]

/-- The loop over a range. -/
theorem rangeLoop_spec {bs : Bitset} {first last : Nat} (hfirst : first % 8 = 0)
    (hlast8 : last % 8 = 0) (hle : first ≤ last) (hlast : last < bs.size)
    (hfix : (bs.size : Int) ≤ fixnumMax) :
    ∃ bs', whileLoop Fault.diverges (fun st : Bitset × Int => decide (st.2 ≤ last))
        (rangeStep last) ((last : Int) - first + 2).toNat (bs, (first : Int)) =
          .ok (bs', ((last + 8 : Nat) : Int)) ∧
      bs'.size = bs.size ∧
      ∀ i, bs'.bit i = if first ≤ i ∧ i < last + 8 then true else bs.bit i := by
  let Inv : Bitset × Int → Prop := fun st =>
    ∃ o : Nat, st.2 = o ∧ first ≤ o ∧ o < last + 9 ∧ o % 8 = 0 ∧
      st.1.size = bs.size ∧ ∀ i, st.1.bit i = if first ≤ i ∧ i < o then true else bs.bit i
  have step : ∀ st, Inv st → decide (st.2 ≤ last) = true →
      ∃ st', rangeStep last st = .ok st' ∧ Inv st' ∧
        ((last : Int) + 1 - st'.2).toNat < ((last : Int) + 1 - st.2).toNat := by
    rintro ⟨r, z⟩ ⟨o, hz, hge, hup, ho, hsize, hbits⟩ hc
    dsimp only at hz hsize hbits hc
    subst hz
    have hlo : (o : Int) ≤ last := of_decide_eq_true hc
    obtain ⟨r', o', hstep, hlt, ho', hup', hsize', hbits'⟩ :=
      @rangeStep_spec r _ _ ho (by exact_mod_cast hlo) (by omega) (by omega)
    refine ⟨(r', (o' : Int)), hstep, ⟨o', rfl, by omega, hup', ho', hsize'.trans hsize, ?_⟩, ?_⟩
    · intro i
      dsimp only
      rw [hbits', hbits]
      by_cases h1 : o ≤ i ∧ i < o'
      · rw [if_pos h1, if_pos (by omega)]
      · rw [if_neg h1]
        by_cases h2 : first ≤ i ∧ i < o
        · rw [if_pos h2, if_pos (by omega)]
        · rw [if_neg h2, if_neg (by omega)]
    · dsimp only
      omega
  have hstart : Inv (bs, (first : Int)) :=
    ⟨first, rfl, le_refl _, by omega, hfirst, rfl, fun i => by rw [if_neg (by omega)]⟩
  have hfuel : ((last : Int) + 1 - first).toNat < ((last : Int) - first + 2).toNat := by omega
  obtain ⟨⟨r, z⟩, hrun, ⟨o, hz, hge, hup, ho, hsize, hbits⟩, hstop⟩ :=
    whileLoop_total step hstart hfuel
  dsimp only at hz hsize hbits
  subst hz
  have hgt : ¬ (o : Int) ≤ last := by simpa using hstop
  have hend : o = last + 8 := by omega
  subst hend
  exact ⟨r, hrun, hsize, hbits⟩

/-- **Reading a range** sets the bits of its bytes. -/
theorem readRange_spec {bs : Bitset} {first last : Nat} (hfirst : first % 8 = 0)
    (hlast8 : last % 8 = 0) (hle : first ≤ last) (hlast : last < bs.size)
    (hfix : (bs.size : Int) ≤ fixnumMax) :
    ∃ bs', (∀ colon hyphen done rest,
        readRange bs ⟨hexText first ++ '-' :: hexText last, colon, hyphen, done, rest⟩
          (hexText first).length = .ok (bs', ((last + 8 : Nat) : Int))) ∧
      bs'.size = bs.size ∧
      ∀ i, bs'.bit i = if first ≤ i ∧ i < last + 8 then true else bs.bit i := by
  obtain ⟨r, hrun, hsize, hbits⟩ := rangeLoop_spec hfirst hlast8 hle hlast hfix
  refine ⟨r, fun colon hyphen done rest => ?_, hsize, hbits⟩
  have htake : (hexText first ++ '-' :: hexText last).take (hexText first).length =
      hexText first := List.take_left
  have hdrop : (hexText first ++ '-' :: hexText last).drop ((hexText first).length + 1) =
      hexText last := by
    rw [← List.drop_drop, List.drop_left]
    rfl
  have hfirstRead := readBignumRadix_hexText (n := first) (by omega)
  have hlastRead := readBignumRadix_hexText (n := last) (by omega)
  have hoffset : ∀ msg, readOffset msg (.fixnum (first : Int)) = .ok (first : Int) := by
    intro msg
    rw [readOffset, if_neg (by omega)]
  have hgt : ¬ (first : Int) > last := by omega
  rw [readRange]
  dsimp only
  rw [htake, hdrop, hfirstRead, ok_bind, hoffset, ok_bind, if_neg (by simp),
    checkOffset_ok hfirst (by omega) hfix, ok_bind, hlastRead, ok_bind]
  dsimp only
  rw [pure_bind, if_neg (by simp), checkOffset_ok hlast8 (by omega) hfix, ok_bind, if_neg hgt]
  exact hrun

/-! ## Blocks -/

/-- The characters of bits. -/
def bitChars (l : List Bool) : Text := l.map fun x => if x then '1' else '0'

theorem plain_bitChars (l : List Bool) : Plain (bitChars l) := by
  intro c hc
  obtain ⟨x, -, rfl⟩ := List.mem_map.mp hc
  cases x <;> decide

theorem readBits_bitChars (l : List Bool) (i : Nat) (hlen : i + l.length ≤ 32) (new : BitVec 32) :
    ∃ new', readBits (bitChars l) i new = .ok new' ∧
      ∀ j < 32, new'.getLsbD j = (new.getLsbD j || (decide (i ≤ j) && l.getD (j - i) false)) := by
  induction l generalizing i new with
  | nil => exact ⟨new, rfl, fun j hj => by simp⟩
  | cons x l ih =>
    rw [List.length_cons] at hlen
    have hrest : ∀ j, (decide (i ≤ j) && (x :: l).getD (j - i) false) =
        ((decide (j = i) && x) || (decide (i + 1 ≤ j) && l.getD (j - (i + 1)) false)) := by
      intro j
      rcases Nat.lt_trichotomy j i with h | h | h
      · have h1 : ¬ i ≤ j := by omega
        have h2 : ¬ j = i := by omega
        have h3 : ¬ i + 1 ≤ j := by omega
        simp [h1, h2, h3]
      · subst h
        simp
      · obtain ⟨k, rfl⟩ : ∃ k, j = i + 1 + k := ⟨j - (i + 1), by omega⟩
        have h1 : i ≤ i + 1 + k := by omega
        have h2 : ¬ i + 1 + k = i := by omega
        have h3 : i + 1 + k - i = k + 1 := by omega
        simp [h1, h2, h3]
    cases x with
    | false =>
      obtain ⟨new', hrun, hbits⟩ := ih (i + 1) (by omega) new
      refine ⟨new', hrun, fun j hj => ?_⟩
      rw [hbits j hj, hrest]
      simp
    | true =>
      obtain ⟨new', hrun, hbits⟩ := ih (i + 1) (by omega) (new ||| (1#32 <<< i))
      refine ⟨new', hrun, fun j hj => ?_⟩
      rw [hbits j hj, hrest, BitVec.getLsbD_or, getLsbD_oneShift i hj, Bool.or_assoc]
      simp

/-- The bits of one byte replaced. -/
theorem setByte_spec {bs : Bitset} {o : Nat} (ho : o % 8 = 0) (hlt : o < bs.size) {l : List Bool}
    (hlen : l.length ≤ 8) {new : BitVec 32}
    (hnew : ∀ j < 32, new.getLsbD j = l.getD j false) :
    ∃ bs', bs.setWord (o / 32) ((bs.words.getD (o / 32) 0 &&& ~~~ (0xff#32 <<< (o % 32 / 8 * 8))) |||
        (new <<< (o % 32 / 8 * 8))) = .ok bs' ∧ bs'.size = bs.size ∧
      ∀ i, bs'.bit i = if o ≤ i ∧ i < o + 8 then l.getD (i - o) false else bs.bit i := by
  have hn : o / 32 < bs.words.length := div_lt_length hlt
  obtain ⟨bs', hset, hsize, hwords⟩ := setWord_eq hn
    ((bs.words.getD (o / 32) 0 &&& ~~~ (0xff#32 <<< (o % 32 / 8 * 8))) |||
      (new <<< (o % 32 / 8 * 8)))
  refine ⟨bs', hset, hsize, fun i => ?_⟩
  have hmod : i % 32 < 32 := Nat.mod_lt i (by decide)
  rw [bit, hwords, bitAt_setWord hn]
  by_cases hi : i / 32 = o / 32
  · rw [if_pos hi, BitVec.getLsbD_or, BitVec.getLsbD_and, BitVec.getLsbD_not,
      getLsbD_byteMask _ hmod, BitVec.getLsbD_shiftLeft, bit, bitAt, hi]
    by_cases hin : o ≤ i ∧ i < o + 8
    · have h1 : o % 32 / 8 * 8 ≤ i % 32 ∧ i % 32 < o % 32 / 8 * 8 + 8 := by omega
      have h2 : ¬ i % 32 < o % 32 / 8 * 8 := by omega
      have h3 : i % 32 - o % 32 / 8 * 8 = i - o := by omega
      rw [if_pos hin, hnew _ (by omega), h3]
      simp [h1, h2, hmod]
    · have h1 : ¬ (o % 32 / 8 * 8 ≤ i % 32 ∧ i % 32 < o % 32 / 8 * 8 + 8) := by omega
      rw [if_neg hin]
      by_cases h2 : i % 32 < o % 32 / 8 * 8
      · simp [h1, h2, hmod]
      · have hnone : l.getD (i % 32 - o % 32 / 8 * 8) false = false :=
          List.getD_eq_default _ _ (by omega)
        rw [hnew _ (by omega), hnone]
        simp [h1, h2, hmod]
  · rw [if_neg hi, if_neg (by omega), bit]

/-- **Reading a block**, with an offset or at the offset reached, sets the bits of its
byte. -/
theorem readBlock_spec {bs : Bitset} {o : Nat} (ho : o % 8 = 0) {l : List Bool}
    (hlen : l.length ≤ 8) (hlt : o < bs.size) (hle : o + l.length ≤ bs.size)
    (hfix : (bs.size : Int) ≤ fixnumMax) :
    ∃ bs', (∀ (w : Word) (offset : Int),
        (w.colon = none ∧ w.buf = bitChars l ∧ offset = o ∨
          w.colon = some (hexText o).length ∧ w.buf = hexText o ++ ':' :: bitChars l) →
        readBlock bs w offset = .ok (bs', ((o + l.length : Nat) : Int))) ∧
      bs'.size = bs.size ∧
      ∀ i, bs'.bit i = if o ≤ i ∧ i < o + 8 then l.getD (i - o) false else bs.bit i := by
  obtain ⟨new, hread, hnew⟩ := readBits_bitChars l 0 (by omega) 0
  have hnew' : ∀ j < 32, new.getLsbD j = l.getD j false := by
    intro j hj
    rw [hnew j hj]
    simp
  obtain ⟨bs', hset, hsize, hbits⟩ := setByte_spec ho hlt hlen hnew'
  refine ⟨bs', fun w offset hw => ?_, hsize, hbits⟩
  have hoffset : blockOffset bs w offset = .ok (o : Int) := by
    rw [blockOffset]
    rcases hw with ⟨hc, -, hoff⟩ | ⟨hc, hbuf⟩
    · rw [hc, hoff]
    · rw [hc, hbuf]
      dsimp only
      rw [List.take_left, readBignumRadix_hexText (by omega), ok_bind]
      dsimp only
      rw [readOffset, if_neg (by omega), ok_bind, checkOffset_ok ho hlt.le hfix]
      rfl
  have hchars : bitBlock w = bitChars l := by
    rw [bitBlock]
    rcases hw with ⟨hc, hbuf, -⟩ | ⟨hc, hbuf⟩
    · rw [hc, hbuf]
    · rw [hc, hbuf]
      dsimp only
      rw [← List.drop_drop, List.drop_left]
      rfl
  have hcount : (bitChars l).length = l.length := List.length_map _
  have hsum : sizeT ((o : Int) + l.length) = o + l.length := by
    rw [show ((o : Int) + l.length) = ((o + l.length : Nat) : Int) by push_cast; rfl]
    exact sizeT_natCast (by omega)
  have hdiv : sizeT ((o : Int).tdiv bitsetBitsPerWord) = o / 32 := by
    rw [bitsetBitsPerWord, show ((o : Int).tdiv (32 : Nat)) = ((o / 32 : Nat) : Int) from rfl]
    apply sizeT_natCast
    simp only [fixnumMax] at *
    omega
  have hb : (((o : Int).tmod bitsetBitsPerWord).tdiv charBit).toNat = o % 32 / 8 := rfl
  rw [readBlock, hoffset, ok_bind, hchars, storeBlock, hcount,
    if_neg (by simp only [charBit]; omega), hsum, if_neg (by omega), hread, ok_bind,
    if_neg (by omega)]
  dsimp only
  have hn : o / 32 < bs.words.length := div_lt_length hlt
  rw [hdiv, hb, word_eq hn, ok_bind]
  simp only [charBit]
  rw [hset, ok_bind]
  rfl

/-! ## Reading item by item -/

theorem solid_plain {s : Text} (hs : Plain s) (hne : s ≠ []) (rest : Text) : Solid (s ++ rest) := by
  obtain ⟨c, s, rfl⟩ := List.exists_cons_of_ne_nil hne
  obtain ⟨hspace, htab, -⟩ := hs c List.mem_cons_self
  simp [Solid, readWhitespace, hspace, htab]

theorem readStep_plain {s : Text} (hs : Plain s) (hne : s ≠ []) (hlen : s.length ≤ wordMaxLen)
    (t : Text) (bs : Option Bitset) (o : Int) (done : Bool) :
    readStep ⟨s ++ t, bs, o, done⟩ =
      readWord t s none none >>= storeWord ⟨s ++ t, bs, o, done⟩ := by
  obtain ⟨c, s, rfl⟩ := List.exists_cons_of_ne_nil hne
  obtain ⟨⟨-, -, -, -, hbrace, -⟩, hs⟩ := List.forall_mem_cons.mp hs
  have hword := readWord_plain hs t [c] none none (by simpa using hlen)
  rw [readStep, List.cons_append]
  dsimp only
  rw [if_neg hbrace, hword]
  rfl

/-- Reading `text` takes a bitset and an offset to others, whatever text follows that
does not start with a blank. -/
structure Reads (text : Text) (bs : Bitset) (o : Int) (bs' : Bitset) (o' : Int) : Prop where
  solid : ∀ rest, Solid rest → Solid (text ++ rest)
  run : ∃ k ≤ text.length, ∀ rest, Solid rest → ∀ fuel,
    whileLoop .diverges (fun st => !st.done) readStep (fuel + k) ⟨text ++ rest, some bs, o, false⟩ =
      whileLoop .diverges (fun st => !st.done) readStep fuel ⟨rest, some bs', o', false⟩

theorem Reads.nil (bs : Bitset) (o : Int) : Reads [] bs o bs o :=
  ⟨fun _ h => h, 0, le_refl 0, fun _ _ _ => rfl⟩

theorem Reads.append {t t' : Text} {bs bs' bs'' : Bitset} {o o' o'' : Int}
    (h : Reads t bs o bs' o') (h' : Reads t' bs' o' bs'' o'') : Reads (t ++ t') bs o bs'' o'' := by
  obtain ⟨hsolid, k, hk, hrun⟩ := h
  obtain ⟨hsolid', k', hk', hrun'⟩ := h'
  refine ⟨fun rest hr => ?_, k' + k, by rw [List.length_append]; omega, fun rest hr fuel => ?_⟩
  · rw [List.append_assoc]
    exact hsolid _ (hsolid' _ hr)
  · rw [List.append_assoc, ← Nat.add_assoc, hrun _ (hsolid' _ hr), hrun' _ hr]

/-- One word. -/
theorem Reads.word {s t : Text} (hs : Plain s) (hne : s ≠ []) {bs bs' : Bitset} {o o' : Int}
    (hstep : ∀ rest, Solid rest →
      readStep ⟨s ++ (t ++ rest), some bs, o, false⟩ = .ok ⟨rest, some bs', o', false⟩) :
    Reads (s ++ t) bs o bs' o' := by
  refine ⟨fun rest _ => ?_, 1, ?_, fun rest hr fuel => ?_⟩
  · rw [List.append_assoc]
    exact solid_plain hs hne _
  · rw [List.length_append]
    have := List.length_pos_of_ne_nil hne
    omega
  · rw [List.append_assoc]
    exact whileLoop_of_true fuel rfl (hstep rest hr)

theorem hexText_ne_nil (n : Nat) : hexText n ≠ [] := List.ne_nil_of_length_pos (hexText_length_pos n)

theorem reads_range {bs : Bitset} {first last : Nat} (hfirst : first % 8 = 0)
    (hlast8 : last % 8 = 0) (hle : first ≤ last) (hlast : last < bs.size)
    (hfix : (bs.size : Int) ≤ fixnumMax) (o : Int) :
    ∃ bs', Reads (rangeText first last) bs o bs' ((last + 8 : Nat) : Int) ∧ bs'.size = bs.size ∧
      ∀ i, bs'.bit i = if first ≤ i ∧ i < last + 8 then true else bs.bit i := by
  have h1 := hexText_length_le (n := first) (by omega)
  have h2 := hexText_length_le (n := last) (by omega)
  have hfirstPlain := plain_hexText first
  obtain ⟨bs', hrun, hsize, hbits⟩ := readRange_spec hfirst hlast8 hle hlast hfix
  refine ⟨bs', ?_, hsize, hbits⟩
  rw [rangeText]
  refine Reads.word hfirstPlain (hexText_ne_nil first) fun rest hr => ?_
  rw [readStep_plain hfirstPlain (hexText_ne_nil first) (by simp only [wordMaxLen]; omega),
    List.cons_append, readWord_mark '-' (.inr rfl) none none (by simp only [wordMaxLen]; omega),
    List.append_assoc, readWord_plain (plain_hexText last) _ _ _ _ (by
      simp only [List.length_append, List.length_singleton, wordMaxLen]
      omega),
    List.cons_append, List.nil_append, readWord_blank hr _ _ (by
      simp only [List.length_append, List.length_singleton, wordMaxLen]
      omega), ok_bind,
    show hexText first ++ ['-'] ++ hexText last = hexText first ++ '-' :: hexText last by simp]
  show ((readRange bs _ (hexText first).length) >>= _) = _
  rw [hrun]
  rfl

theorem bitChars_ne_nil {l : List Bool} (h : l ≠ []) : bitChars l ≠ [] := by
  rw [bitChars, ne_eq, List.map_eq_nil_iff]
  exact h

/-- A block, behind its offset or where the last item ended. -/
theorem reads_block {bs : Bitset} {o : Nat} (ho : o % 8 = 0) {l : List Bool} (hne : l ≠ [])
    (hlen : l.length ≤ 8) (hlt : o < bs.size) (hle : o + l.length ≤ bs.size)
    (hfix : (bs.size : Int) ≤ fixnumMax) :
    ∃ bs', Reads (bitChars l ++ [' ']) bs o bs' ((o + l.length : Nat) : Int) ∧
      (∀ offset, Reads (hexText o ++ ':' :: (bitChars l ++ [' '])) bs offset bs'
        ((o + l.length : Nat) : Int)) ∧
      bs'.size = bs.size ∧
      ∀ i, bs'.bit i = if o ≤ i ∧ i < o + 8 then l.getD (i - o) false else bs.bit i := by
  have hhex := hexText_length_le (n := o) (by omega)
  have hchars : (bitChars l).length = l.length := List.length_map _
  have hplain := plain_bitChars l
  obtain ⟨bs', hrun, hsize, hbits⟩ := readBlock_spec ho hlen hlt hle hfix
  refine ⟨bs', ?_, fun offset => ?_, hsize, hbits⟩
  · refine Reads.word hplain (bitChars_ne_nil hne) fun rest hr => ?_
    rw [readStep_plain hplain (bitChars_ne_nil hne) (by simp only [wordMaxLen]; omega),
      List.cons_append, List.nil_append, readWord_blank hr none none (by
        simp only [wordMaxLen]
        omega), ok_bind]
    show (readBlock bs _ (o : Int) >>= _) = _
    rw [hrun _ _ (.inl ⟨rfl, rfl, rfl⟩)]
    rfl
  · refine Reads.word (plain_hexText o) (hexText_ne_nil o) fun rest hr => ?_
    rw [readStep_plain (plain_hexText o) (hexText_ne_nil o) (by simp only [wordMaxLen]; omega),
      List.cons_append, readWord_mark ':' (.inl rfl) none none (by simp only [wordMaxLen]; omega),
      List.append_assoc, readWord_plain hplain _ _ _ _ (by
        simp only [List.length_append, List.length_singleton, wordMaxLen]
        omega),
      List.cons_append, List.nil_append, readWord_blank hr _ _ (by
        simp only [List.length_append, List.length_singleton, wordMaxLen]
        omega), ok_bind]
    show (readBlock bs _ offset >>= _) = _
    rw [hrun _ _ (.inr ⟨rfl, by simp⟩)]
    rfl

end Bitset

end Idio
