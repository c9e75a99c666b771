/-
  Lib/Utf8.lean --- UTF-8 and how any bytes fall into sequences.

  The encodings are those of `String.utf8EncodeChar`.  Bytes that are no text are cut
  where they stop being the beginning of an encoding: an ill-formed sequence is a
  beginning (or nothing) together with the byte that cannot follow it, and the next
  sequence starts after that byte.  What is left at the end may be a beginning.

  `readBytes` is the machine that reads one sequence; it keeps the number of bytes that are
  due, the range of the next one and the code point so far.
-/
import Mathlib.Algebra.Group.Nat.Defs
import Mathlib.Data.List.Basic

set_option autoImplicit false

namespace Utf8

/-! ## Encodings -/

/-- The encoding of a character. -/
def WellFormed (x : List UInt8) : Prop := ∃ c : Char, x = String.utf8EncodeChar c

/-- The beginning of an encoding, and not the whole of it. -/
def Incomplete (x : List UInt8) : Prop :=
  ∃ c : Char, x <+: String.utf8EncodeChar c ∧ x ≠ String.utf8EncodeChar c

/-- A byte that may be the first of an encoding. -/
def Begins (b : UInt8) : Prop := WellFormed [b] ∨ Incomplete [b]

/-- A beginning that its last byte has spoilt. -/
structure IllFormed (x : List UInt8) (b : UInt8) : Prop where
  before : Incomplete x
  notIncomplete : ¬ Incomplete (x ++ [b])
  notWellFormed : ¬ WellFormed (x ++ [b])

/-- The first sequence of some bytes, an ill-formed one as `none`, and what follows it. -/
inductive Starts : List UInt8 → Option Char → List UInt8 → Prop where
  | wellFormed (c : Char) (bs : List UInt8) : Starts (String.utf8EncodeChar c ++ bs) (some c) bs
  | illFormed {x : List UInt8} {b : UInt8} (hx : IllFormed x b) (bs : List UInt8) :
      Starts (x ++ b :: bs) none bs

/-- The sequences that bytes fall into, and the beginning that is left at the end. -/
inductive Falls : List UInt8 → List (Option Char) → List UInt8 → Prop where
  | rest {x : List UInt8} (h : Incomplete x) : Falls x [] x
  | sequence {bs bs' r : List UInt8} {c : Option Char} {cs : List (Option Char)}
      (hc : Starts bs c bs') (h : Falls bs' cs r) : Falls bs (c :: cs) r

/-- U+FFFD. -/
def replacement : Nat := 0xFFFD

/-- The code points that stand for some sequences and for what is left. -/
def codePoints (cs : List (Option Char)) (r : List UInt8) : List Nat :=
  cs.map (fun c => (c.map Char.toNat).getD replacement) ++ if r = [] then [] else [replacement]

/-- The bytes end inside of a sequence. -/
def EndsInside (bs : List UInt8) : Prop := ∃ cs r, Falls bs cs r ∧ r ≠ []

/-- No byte after the first ill-formed sequence begins a sequence. -/
inductive QuietAfterIllFormed : List UInt8 → Prop where
  | rest {x : List UInt8} (h : Incomplete x) : QuietAfterIllFormed x
  | wellFormed {bs bs' : List UInt8} {c : Char} (hc : Starts bs (some c) bs')
      (h : QuietAfterIllFormed bs') : QuietAfterIllFormed bs
  | illFormed {bs bs' : List UInt8} (hc : Starts bs none bs') (h : ∀ b ∈ bs', ¬ Begins b) :
      QuietAfterIllFormed bs

/-! ## The machine -/

/-- The bytes that are due, the range of the next one, and the code point so far. -/
structure Due where
  count : Nat
  lo : Nat
  hi : Nat
  code : Nat
  deriving DecidableEq, Repr

/-- After the first byte of a sequence. -/
def first (b : Nat) : Option Due :=
  if b < 0x80 then some ⟨0, 0, 0, b⟩
  else if b < 0xC2 then none
  else if b < 0xE0 then some ⟨1, 0x80, 0xBF, b % 32⟩
  else if b < 0xF0 then
    some ⟨2, if b = 0xE0 then 0xA0 else 0x80, if b = 0xED then 0x9F else 0xBF, b % 16⟩
  else if b < 0xF5 then
    some ⟨3, if b = 0xF0 then 0x90 else 0x80, if b = 0xF4 then 0x8F else 0xBF, b % 8⟩
  else none

/-- After one more byte. -/
def Due.next (d : Due) (b : Nat) : Option Due :=
  if d.count ≠ 0 ∧ d.lo ≤ b ∧ b ≤ d.hi then
    some ⟨d.count - 1, 0x80, 0xBF, d.code * 64 + b % 64⟩
  else none

/-- After some more bytes. -/
def Due.after (d : Due) : List UInt8 → Option Due
  | [] => some d
  | b :: bs => (d.next b.toNat).bind fun d => d.after bs

/-- After the bytes of a sequence. -/
def readBytes : List UInt8 → Option Due
  | [] => none
  | b :: bs => (first b.toNat).bind fun d => d.after bs


theorem toNat_ofNat {n : Nat} (h : n < 256) : (UInt8.ofNat n).toNat = n := by
  rw [UInt8.toNat_ofNat', Nat.mod_eq_of_lt h]

theorem eq_ofNat {b : UInt8} {n : Nat} (h : b.toNat = n) : b = UInt8.ofNat n := by
  subst h
  exact UInt8.ofNat_toNat.symm

variable {d d' : Due} {x bs : List UInt8}

theorem Due.after_cons {n : Nat} (hn : n < 256) (hc : d.count ≠ 0) (hlo : d.lo ≤ n)
    (hhi : n ≤ d.hi) : d.after (UInt8.ofNat n :: bs) =
      Due.after ⟨d.count - 1, 0x80, 0xBF, d.code * 64 + n % 64⟩ bs := by
  rw [Due.after, toNat_ofNat hn, Due.next, if_pos ⟨hc, hlo, hhi⟩]
  rfl

theorem Due.after_of_count_zero (h : d.after bs = some d') (hc : d.count = 0) :
    bs = [] ∧ d' = d := by
  cases bs with
  | nil => exact ⟨rfl, (Option.some.inj h).symm⟩
  | cons b bs => simp [Due.after, Due.next, hc] at h

theorem Due.after_of_count_lt (h : d.after bs = some d') (hc : d'.count < d.count) :
    ∃ b bs', bs = b :: bs' ∧ d.lo ≤ b.toNat ∧ b.toNat ≤ d.hi ∧
      Due.after ⟨d.count - 1, 0x80, 0xBF, d.code * 64 + b.toNat % 64⟩ bs' = some d' := by
  cases bs with
  | nil =>
    cases h
    exact absurd hc (Nat.lt_irrefl _)
  | cons b bs =>
    rw [Due.after, Due.next] at h
    split at h
    · rename_i hb
      exact ⟨b, bs, rfl, hb.2.1, hb.2.2, h⟩
    · cases h

theorem Due.after_append (y : List UInt8) :
    d.after (bs ++ y) = (d.after bs).bind fun d => d.after y := by
  induction bs generalizing d with
  | nil => rfl
  | cons b bs ih =>
    rw [List.cons_append, Due.after, Due.after]
    cases d.next b.toNat with
    | none => rfl
    | some d => exact ih

theorem Due.after_count (h : d.after bs = some d') : d'.count + bs.length = d.count := by
  induction bs generalizing d with
  | nil =>
    cases h
    rfl
  | cons b bs ih =>
    rw [Due.after, Due.next] at h
    split at h
    · rename_i hb
      have := ih h
      dsimp only at this
      rw [List.length_cons]
      omega
    · cases h

theorem readBytes_append (hx : x ≠ []) (y : List UInt8) :
    readBytes (x ++ y) = (readBytes x).bind fun d => d.after y := by
  cases x with
  | nil => exact absurd rfl hx
  | cons b x =>
    rw [List.cons_append, readBytes, readBytes]
    cases first b.toNat with
    | none => rfl
    | some d => exact Due.after_append y

/-! ## What it reads -/

/-- The encoding of a character is read to its end. -/
theorem readBytes_encode (c : Char) :
    ∃ lo hi, readBytes (String.utf8EncodeChar c) = some ⟨0, lo, hi, c.toNat⟩ := by
  have hv : c.toNat < 0xD800 ∨ 0xDFFF < c.toNat ∧ c.toNat < 0x110000 := c.valid
  rw [String.utf8EncodeChar]
  simp only [show c.val.toNat = c.toNat from rfl]
  generalize c.toNat = v at hv
  split
  · refine ⟨0, 0, ?_⟩
    rw [readBytes, toNat_ofNat (by omega), first, if_pos (by omega)]
    rfl
  split
  · refine ⟨0x80, 0xBF, ?_⟩
    rw [readBytes, toNat_ofNat (by omega), first, if_neg (by omega), if_neg (by omega),
      if_pos (by omega), Option.bind_some,
      Due.after_cons (by omega) (by simp) (by dsimp; omega) (by dsimp; omega)]
    simp [Due.after]
    omega
  split
  · refine ⟨0x80, 0xBF, ?_⟩
    rw [readBytes, toNat_ofNat (by omega), first, if_neg (by omega), if_neg (by omega),
      if_neg (by omega), if_pos (by omega), Option.bind_some,
      Due.after_cons (by omega) (by simp) (by dsimp; split <;> omega) (by dsimp; split <;> omega),
      Due.after_cons (by omega) (by simp) (by dsimp; omega) (by dsimp; omega)]
    simp [Due.after]
    omega
  · refine ⟨0x80, 0xBF, ?_⟩
    rw [readBytes, toNat_ofNat (by omega), first, if_neg (by omega), if_neg (by omega),
      if_neg (by omega), if_neg (by omega), if_pos (by omega), Option.bind_some,
      Due.after_cons (by omega) (by simp) (by dsimp; split <;> omega) (by dsimp; split <;> omega),
      Due.after_cons (by omega) (by simp) (by dsimp; omega) (by dsimp; omega),
      Due.after_cons (by omega) (by simp) (by dsimp; omega) (by dsimp; omega)]
    simp [Due.after]
    omega

theorem exists_char_toNat {n : Nat} (h : n < 0xD800 ∨ 0xDFFF < n ∧ n < 0x110000) :
    ∃ c : Char, c.val.toNat = n := ⟨Char.ofNatAux n h, UInt32.toNat_ofNatLT⟩

/-- What is read to its end is the encoding of a character. -/
theorem exists_char_of_readBytes (h : readBytes x = some d) (h0 : d.count = 0) :
    ∃ c : Char, c.toNat = d.code ∧ x = String.utf8EncodeChar c := by
  cases x with
  | nil => cases h
  | cons b bs =>
    rw [readBytes, Option.bind_eq_some_iff] at h
    obtain ⟨d₀, hfirst, h⟩ := h
    have hb := b.toNat_lt
    rw [first] at hfirst
    split at hfirst
    · cases hfirst
      obtain ⟨rfl, rfl⟩ := Due.after_of_count_zero h rfl
      obtain ⟨c, hc⟩ := exists_char_toNat (n := b.toNat) (by omega)
      refine ⟨c, hc, ?_⟩
      rw [String.utf8EncodeChar, hc, if_pos (by omega), UInt8.ofNat_toNat]
    split at hfirst
    · cases hfirst
    split at hfirst
    · cases hfirst
      obtain ⟨b₁, bs, rfl, hlo, hhi, h⟩ := Due.after_of_count_lt h (by dsimp; omega)
      obtain ⟨rfl, rfl⟩ := Due.after_of_count_zero h rfl
      dsimp only at hlo hhi ⊢
      generalize hn : b.toNat % 32 * 64 + b₁.toNat % 64 = n
      have hbytes : b.toNat = n / 64 % 0x20 + 0xc0 ∧ b₁.toNat = n % 0x40 + 0x80 := by omega
      obtain ⟨c, hc⟩ := exists_char_toNat (n := n) (by omega)
      refine ⟨c, hc, ?_⟩
      rw [String.utf8EncodeChar, hc, if_neg (by omega), if_pos (by omega),
        ← eq_ofNat hbytes.1, ← eq_ofNat hbytes.2]
    split at hfirst
    · cases hfirst
      obtain ⟨b₁, bs, rfl, hlo, hhi, h⟩ := Due.after_of_count_lt h (by dsimp; omega)
      obtain ⟨b₂, bs, rfl, hlo₂, hhi₂, h⟩ := Due.after_of_count_lt h (by dsimp; omega)
      obtain ⟨rfl, rfl⟩ := Due.after_of_count_zero h rfl
      dsimp only at hlo hhi hlo₂ hhi₂ ⊢
      generalize hn : (b.toNat % 16 * 64 + b₁.toNat % 64) * 64 + b₂.toNat % 64 = n
      -- E0 excludes what is short enough for two bytes, ED the surrogates
      have hn' : 0x800 ≤ n ∧ n < 0x10000 ∧ ¬ (0xD800 ≤ n ∧ n < 0xE000) := by
        split at hlo <;> split at hhi <;> omega
      have hbytes : b.toNat = n / 4096 % 0x10 + 0xe0 ∧ b₁.toNat = n / 64 % 0x40 + 0x80 ∧
          b₂.toNat = n % 0x40 + 0x80 := by
        split at hlo <;> split at hhi <;> omega
      obtain ⟨c, hc⟩ := exists_char_toNat (n := n) (by omega)
      refine ⟨c, hc, ?_⟩
      rw [String.utf8EncodeChar, hc, if_neg (by omega), if_neg (by omega), if_pos (by omega),
        ← eq_ofNat hbytes.1, ← eq_ofNat hbytes.2.1, ← eq_ofNat hbytes.2.2]
    split at hfirst
    · cases hfirst
      obtain ⟨b₁, bs, rfl, hlo, hhi, h⟩ := Due.after_of_count_lt h (by dsimp; omega)
      obtain ⟨b₂, bs, rfl, hlo₂, hhi₂, h⟩ := Due.after_of_count_lt h (by dsimp; omega)
      obtain ⟨b₃, bs, rfl, hlo₃, hhi₃, h⟩ := Due.after_of_count_lt h (by dsimp; omega)
      obtain ⟨rfl, rfl⟩ := Due.after_of_count_zero h rfl
      dsimp only at hlo hhi hlo₂ hhi₂ hlo₃ hhi₃ ⊢
      generalize hn : ((b.toNat % 8 * 64 + b₁.toNat % 64) * 64 + b₂.toNat % 64) * 64 +
        b₃.toNat % 64 = n
      -- F0 excludes what is short enough for three bytes, F4 what lies above U+10FFFF
      have hn' : 0x10000 ≤ n ∧ n < 0x110000 := by
        split at hlo <;> split at hhi <;> omega
      have hbytes : b.toNat = n / 262144 % 0x08 + 0xf0 ∧ b₁.toNat = n / 4096 % 0x40 + 0x80 ∧
          b₂.toNat = n / 64 % 0x40 + 0x80 ∧ b₃.toNat = n % 0x40 + 0x80 := by
        split at hlo <;> split at hhi <;> omega
      obtain ⟨c, hc⟩ := exists_char_toNat (n := n) (by omega)
      refine ⟨c, hc, ?_⟩
      rw [String.utf8EncodeChar, hc, if_neg (by omega), if_neg (by omega), if_neg (by omega),
        ← eq_ofNat hbytes.1, ← eq_ofNat hbytes.2.1, ← eq_ofNat hbytes.2.2.1,
        ← eq_ofNat hbytes.2.2.2]
    · cases hfirst

/-- While bytes are due there is one that may follow, and the code point so far leaves
room for the rest of it. -/
structure Due.Open (d : Due) : Prop where
  low : 0x80 ≤ d.lo
  range : d.lo ≤ d.hi
  high : d.hi ≤ 0xBF
  count : d.count ≤ 3
  room : d.code < 8 * 64 ^ (3 - d.count)

theorem Due.Open.next {b : Nat} (h : d.Open) (hd : d.next b = some d') : d'.Open := by
  rw [Due.next] at hd
  split at hd
  · rename_i hb
    cases hd
    have hcount := h.count
    have hroom := h.room
    refine ⟨Nat.le_refl _, Nat.le_of_ble_eq_true rfl, Nat.le_refl _, Nat.le_trans (Nat.sub_le _ _) hcount, ?_⟩
    have hpow : 3 - (d.count - 1) = 3 - d.count + 1 := by omega
    show d.code * 64 + b % 64 < 8 * 64 ^ (3 - (d.count - 1))
    rw [hpow, Nat.pow_succ]
    omega
  · cases hd

theorem Due.Open.after (h : d.Open) (hd : d.after bs = some d') : d'.Open := by
  induction bs generalizing d with
  | nil =>
    cases hd
    exact h
  | cons b bs ih =>
    rw [Due.after, Option.bind_eq_some_iff] at hd
    obtain ⟨d₁, hnext, hd⟩ := hd
    exact ih (h.next hnext) hd

theorem first_open {b : Nat} (h : first b = some d) (hd : d.count ≠ 0) : d.Open := by
  rw [first] at h
  split at h
  · cases h
    exact absurd rfl hd
  split at h
  · cases h
  split at h
  · cases h
    exact ⟨Nat.le_refl _, Nat.le_of_ble_eq_true rfl, Nat.le_refl _, Nat.le_of_ble_eq_true rfl,
      by dsimp; omega⟩
  split at h
  · cases h
    refine ⟨?_, ?_, ?_, Nat.le_of_ble_eq_true rfl, ?_⟩ <;> dsimp
    · split <;> omega
    · split <;> split <;> omega
    · split <;> omega
    · omega
  split at h
  · cases h
    refine ⟨?_, ?_, ?_, Nat.le_refl _, ?_⟩ <;> dsimp
    · split <;> omega
    · split <;> split <;> omega
    · split <;> omega
    · omega
  · cases h

/-- What is due can follow. -/
theorem Due.Open.completes {n : Nat} (h : d.Open) (hn : d.count = n) :
    ∃ y d', d.after y = some d' ∧ d'.count = 0 ∧ y.length = n := by
  induction n generalizing d with
  | zero => exact ⟨[], d, rfl, hn, rfl⟩
  | succ n ih =>
    have hnext : d.next (UInt8.ofNat d.lo).toNat =
        some ⟨d.count - 1, 0x80, 0xBF, d.code * 64 + d.lo % 64⟩ := by
      have := h.range
      have := h.high
      rw [toNat_ofNat (by omega), Due.next, if_pos ⟨by omega, Nat.le_refl _, h.range⟩]
    obtain ⟨y, d', hafter, hcount, hlen⟩ := ih (h.next hnext) (by dsimp only; omega)
    refine ⟨UInt8.ofNat d.lo :: y, d', ?_, hcount, by rw [List.length_cons, hlen]⟩
    rw [Due.after, hnext]
    exact hafter

theorem readBytes_open (h : readBytes x = some d) (hd : d.count ≠ 0) : d.Open := by
  cases x with
  | nil => cases h
  | cons b bs =>
    rw [readBytes, Option.bind_eq_some_iff] at h
    obtain ⟨d₀, hfirst, h⟩ := h
    have hcount := Due.after_count h
    exact (first_open hfirst (by omega)).after h

/-! ## The sequences -/

theorem wellFormed_iff : WellFormed x ↔ ∃ d, readBytes x = some d ∧ d.count = 0 := by
  constructor
  · rintro ⟨c, rfl⟩
    obtain ⟨lo, hi, h⟩ := readBytes_encode c
    exact ⟨_, h, rfl⟩
  · rintro ⟨d, h, hd⟩
    obtain ⟨c, -, hx⟩ := exists_char_of_readBytes h hd
    exact ⟨c, hx⟩

theorem incomplete_iff : Incomplete x ↔ x = [] ∨ ∃ d, readBytes x = some d ∧ d.count ≠ 0 := by
  constructor
  · rintro ⟨c, ⟨y, hy⟩, hne⟩
    by_cases hx : x = []
    · exact .inl hx
    · obtain ⟨lo, hi, h⟩ := readBytes_encode c
      rw [← hy, readBytes_append hx, Option.bind_eq_some_iff] at h
      obtain ⟨d, hscan, hafter⟩ := h
      refine .inr ⟨d, hscan, ?_⟩
      have hcount := Due.after_count hafter
      have hy' : y ≠ [] := by
        rintro rfl
        exact hne (by rw [← hy, List.append_nil])
      have := List.length_pos_iff.mpr hy'
      omega
  · rintro (rfl | ⟨d, h, hd⟩)
    · exact ⟨'a', List.nil_prefix, by decide⟩
    · obtain ⟨y, d', hafter, hcount, hlen⟩ := (readBytes_open h hd).completes rfl
      have hx : x ≠ [] := by
        rintro rfl
        cases h
      have hscan : readBytes (x ++ y) = some d' := by
        rw [readBytes_append hx, h]
        exact hafter
      obtain ⟨c, -, hc⟩ := exists_char_of_readBytes hscan hcount
      refine ⟨c, ⟨y, hc⟩, fun he => ?_⟩
      rw [← hc] at he
      have hy : y = [] := List.append_right_eq_self.mp he.symm
      rw [hy] at hlen
      exact hd hlen.symm

theorem WellFormed.not_incomplete (h : WellFormed x) : ¬ Incomplete x := by
  intro h'
  obtain ⟨d, hscan, hd⟩ := wellFormed_iff.mp h
  rcases incomplete_iff.mp h' with rfl | ⟨d', hscan', hd'⟩
  · cases hscan
  · rw [hscan] at hscan'
    cases hscan'
    exact hd' hd

theorem Incomplete.of_prefix {y : List UInt8} (h : Incomplete x) (hy : y <+: x) : Incomplete y := by
  obtain ⟨c, hx, hne⟩ := h
  refine ⟨c, hy.trans hx, ?_⟩
  rintro rfl
  exact hne (hx.eq_of_length (Nat.le_antisymm hx.length_le hy.length_le))

theorem encode_injective {c c' : Char} (h : String.utf8EncodeChar c = String.utf8EncodeChar c') :
    c = c' := by
  obtain ⟨lo, hi, hscan⟩ := readBytes_encode c
  obtain ⟨lo', hi', hscan'⟩ := readBytes_encode c'
  rw [h, hscan'] at hscan
  exact Char.toNat_inj.mp (congrArg Due.code (Option.some.inj hscan)).symm

/-- A byte that no sequence begins with. -/
theorem IllFormed.of_first {b : UInt8} (h : first b.toNat = none) : IllFormed [] b := by
  have hscan : readBytes [b] = none := by rw [readBytes, h]; rfl
  refine ⟨incomplete_iff.mpr (.inl rfl), fun h' => ?_, fun h' => ?_⟩
  · rcases incomplete_iff.mp h' with hnil | ⟨d, hd, -⟩
    · cases hnil
    · exact absurd (hscan.symm.trans hd) nofun
  · obtain ⟨d, hd, -⟩ := wellFormed_iff.mp h'
    exact absurd (hscan.symm.trans hd) nofun

/-- A byte that cannot follow. -/
theorem IllFormed.of_next {b : UInt8} (hx : readBytes x = some d) (hd : d.count ≠ 0)
    (h : d.next b.toNat = none) : IllFormed x b := by
  have hne : x ≠ [] := by
    rintro rfl
    cases hx
  have hscan : readBytes (x ++ [b]) = none := by
    rw [readBytes_append hne, hx, Option.bind_some, Due.after, h]
    rfl
  refine ⟨incomplete_iff.mpr (.inr ⟨d, hx, hd⟩), fun h' => ?_, fun h' => ?_⟩
  · rcases incomplete_iff.mp h' with hnil | ⟨d', hd', -⟩
    · exact absurd hnil (List.append_ne_nil_of_right_ne_nil x (List.cons_ne_nil b []))
    · exact absurd (hscan.symm.trans hd') nofun
  · obtain ⟨d', hd', -⟩ := wellFormed_iff.mp h'
    exact absurd (hscan.symm.trans hd') nofun

/-- A byte begins a sequence, or is one by itself. -/
theorem begins_iff {b : UInt8} : Begins b ↔ ¬ IllFormed [] b :=
  ⟨fun h hi => h.elim hi.notWellFormed hi.notIncomplete, fun h => by
    by_contra hb
    rw [Begins, not_or] at hb
    exact h ⟨incomplete_iff.mpr (.inl rfl), hb.2, hb.1⟩⟩

/-- A whole sequence: its last byte, and none before, ends what was the beginning of an
encoding. -/
structure Whole (x : List UInt8) : Prop where
  notIncomplete : ¬ Incomplete x
  before : ∀ y b, x = y ++ [b] → Incomplete y

theorem Whole.encode (c : Char) : Whole (String.utf8EncodeChar c) where
  notIncomplete := WellFormed.not_incomplete ⟨c, rfl⟩
  before := fun y b h =>
    ⟨c, ⟨[b], h.symm⟩, fun he => by
      rw [← he] at h
      exact absurd (List.append_right_eq_self.mp h.symm) (List.cons_ne_nil b [])⟩

theorem IllFormed.whole {b : UInt8} (h : IllFormed x b) : Whole (x ++ [b]) where
  notIncomplete := h.notIncomplete
  before := fun y b' he => by
    obtain ⟨rfl, -⟩ := List.append_inj' he rfl
    exact h.before

/-- Of a whole sequence that another begins with, nothing is left. -/
theorem Whole.eq_of_prefix {y : List UInt8} (hx : Whole x) (hy : Whole y) (h : x <+: y) : x = y := by
  obtain ⟨z, rfl⟩ := h
  rcases List.eq_nil_or_concat z with rfl | ⟨z, b, rfl⟩
  · exact (List.append_nil x).symm
  · have := hy.before (x ++ z) b (by rw [List.concat_eq_append, List.append_assoc])
    exact absurd (this.of_prefix (List.prefix_append x z)) hx.notIncomplete

/-- The first sequence of some bytes is one only. -/
theorem Whole.append_inj {y a b : List UInt8} (hx : Whole x) (hy : Whole y)
    (h : x ++ a = y ++ b) : x = y ∧ a = b := by
  have hxy : x = y := by
    rcases List.prefix_or_prefix_of_prefix (List.prefix_append x a) (h ▸ List.prefix_append y b) with
      h | h
    · exact hx.eq_of_prefix hy h
    · exact (hy.eq_of_prefix hx h).symm
  subst hxy
  exact ⟨rfl, List.append_cancel_left h⟩

variable {c c' : Option Char} {bs' r r' : List UInt8} {cs cs' : List (Option Char)}

theorem Starts.whole (h : Starts bs c bs') : ∃ x, Whole x ∧ bs = x ++ bs' := by
  cases h with
  | wellFormed c => exact ⟨_, .encode c, rfl⟩
  | illFormed hx => exact ⟨_, hx.whole, List.append_cons _ _ _⟩

theorem Starts.not_incomplete (h : Starts bs c bs') : ¬ Incomplete bs := by
  obtain ⟨x, hx, rfl⟩ := h.whole
  exact fun hi => hx.notIncomplete (hi.of_prefix (List.prefix_append x bs'))

theorem Starts.length_lt (h : Starts bs c bs') : bs'.length < bs.length := by
  obtain ⟨x, hx, rfl⟩ := h.whole
  have hne : x ≠ [] := by
    rintro rfl
    exact hx.notIncomplete (incomplete_iff.mpr (.inl rfl))
  have := List.length_pos_iff.mpr hne
  rw [List.length_append]
  omega

theorem Starts.unique {rest : List UInt8} (h : Starts bs c bs') (h' : Starts bs c' rest) :
    c = c' ∧ bs' = rest := by
  cases h with
  | wellFormed c =>
    generalize hbs : String.utf8EncodeChar c ++ bs' = bs at h'
    cases h' with
    | wellFormed c' =>
      obtain ⟨hc, hrest⟩ := (Whole.encode c).append_inj (.encode c') hbs
      exact ⟨by rw [encode_injective hc], hrest⟩
    | illFormed hx =>
      obtain ⟨hc, -⟩ := (Whole.encode c).append_inj hx.whole (hbs.trans (List.append_cons _ _ _))
      exact absurd ⟨c, hc.symm⟩ hx.notWellFormed
  | @illFormed x b hx =>
    generalize hbs : x ++ b :: bs' = bs at h'
    rw [List.append_cons] at hbs
    cases h' with
    | wellFormed c =>
      obtain ⟨hc, -⟩ := hx.whole.append_inj (.encode c) hbs
      exact absurd ⟨c, hc⟩ hx.notWellFormed
    | illFormed hx' =>
      obtain ⟨-, hrest⟩ := hx.whole.append_inj hx'.whole (hbs.trans (List.append_cons _ _ _))
      exact ⟨rfl, hrest⟩

/-- Bytes fall into sequences in one way. -/
theorem Falls.unique (h : Falls bs cs r) (h' : Falls bs cs' r') : cs = cs' ∧ r = r' := by
  induction h generalizing cs' with
  | rest h =>
    cases h' with
    | rest => exact ⟨rfl, rfl⟩
    | sequence hc => exact absurd h hc.not_incomplete
  | sequence hc h ih =>
    cases h' with
    | rest hi => exact absurd hi hc.not_incomplete
    | sequence hc' h' =>
      obtain ⟨rfl, rfl⟩ := hc.unique hc'
      obtain ⟨rfl, rfl⟩ := ih h'
      exact ⟨rfl, rfl⟩

/-- Quiet bytes after their first sequence. -/
theorem QuietAfterIllFormed.of_starts (h : QuietAfterIllFormed bs) (hc : Starts bs c bs') :
    (c ≠ none → QuietAfterIllFormed bs') ∧ (c = none → ∀ b ∈ bs', ¬ Begins b) := by
  cases h with
  | rest hi => exact absurd hi hc.not_incomplete
  | wellFormed hc' h =>
    obtain ⟨rfl, rfl⟩ := hc.unique hc'
    exact ⟨fun _ => h, nofun⟩
  | illFormed hc' h =>
    obtain ⟨rfl, rfl⟩ := hc.unique hc'
    exact ⟨fun hne => absurd rfl hne, fun _ => h⟩

theorem endsInside_iff (h : Falls bs cs r) :
    EndsInside bs ↔ r ≠ [] := by
  constructor
  · rintro ⟨cs', r', h', hr⟩
    obtain ⟨-, rfl⟩ := h.unique h'
    exact hr
  · exact fun hr => ⟨cs, r, h, hr⟩

end Utf8
